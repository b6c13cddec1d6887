import Adabt.Exec.RunRows

/-! # What the column store hands up

A column store that holds the records projects them in id order, and selects the
first few of them under a key. What it aggregates is compared with what the rows
aggregate. -/

set_option autoImplicit false

namespace Adabt.Exec
open Adabt.Core Adabt.Ir Adabt.Library Std

variable {store : ColumnStore} {records : OrdMap RecordId Record}

namespace ColumnStore

/-- The records of the live rows, in row order. -/
def liveRows (store : ColumnStore) (records : OrdMap RecordId Record) : List Row :=
  store.live.map fun r => (r.1, (records.get r.1).getD ∅)

section Held

variable (h : store.Holds records)
include h

theorem get_of_live {r : RecordId × ℕ} (hr : r ∈ store.live) :
    ∃ rec, records.get r.1 = some rec := by
  have hid : r.1 ∈ records.keys := h.ids.mem_iff.mp (List.mem_map_of_mem hr)
  exact Option.isSome_iff_exists.mp ((OrdMap.mem_keys records r.1).mp hid)

theorem live_of_entry {r : Row} (hr : r ∈ records.entries) : ∃ n, (r.1, n) ∈ store.live := by
  have hid : r.1 ∈ records.keys := List.mem_map_of_mem hr
  obtain ⟨⟨id, n⟩, hn, rfl⟩ := List.mem_map.mp (h.ids.mem_iff.mpr hid)
  exact ⟨n, hn⟩

theorem live_nodup : (store.live.map (·.1)).Nodup := h.ids.nodup_iff.mpr records.keys_nodup

theorem mem_liveRows {r : Row} : r ∈ store.liveRows records ↔ r ∈ records.entries := by
  rw [liveRows, List.mem_map]
  constructor
  · rintro ⟨l, hl, rfl⟩
    obtain ⟨rec, hrec⟩ := get_of_live h hl
    rw [OrdMap.mem_entries, hrec]
    rfl
  · intro hr
    obtain ⟨n, hn⟩ := live_of_entry h hr
    refine ⟨(r.1, n), hn, ?_⟩
    rw [(OrdMap.mem_entries records r.1 r.2).mp hr]
    rfl

theorem liveRows_perm : (store.liveRows records).Perm records.entries := by
  have hids : (store.liveRows records).map (·.1) = store.live.map (·.1) := by
    rw [liveRows, List.map_map]
    rfl
  have hlive : (store.liveRows records).Nodup := by
    apply List.Nodup.of_map (·.1)
    rw [hids]
    exact live_nodup h
  exact (List.perm_ext_iff_of_nodup hlive (List.Nodup.of_map _ records.keys_nodup)).mpr
    fun r => mem_liveRows h

theorem liveRows_eq (ha : (store.live.map (·.1)).Pairwise (· < ·)) :
    store.liveRows records = records.entries := by
  apply ascending_ext Prod.fst
  · rw [liveRows, List.pairwise_map]
    exact List.pairwise_map.mp ha
  · exact records.sorted
  · exact fun r => mem_liveRows h

theorem cell_eq {r : RecordId × ℕ} (hr : r ∈ store.live) (name : String) :
    store.cell name r.2 = ((records.get r.1).getD ∅).get name := by
  obtain ⟨rec, hrec⟩ := get_of_live h hr
  rw [h.cells r hr rec hrec, hrec]
  rfl

theorem assemble_eq {r : RecordId × ℕ} (hr : r ∈ store.live) (fields : List String) :
    store.assemble fields r.2 = ((records.get r.1).getD ∅).project fields := by
  rw [assemble, Record.project]
  congr 1
  funext out f
  have hcell := cell_eq h hr f
  cases hget : ((records.get r.1).getD ∅).get f with
  | none => simp [hcell, hget]
  | some v => simp [hcell, hget]

/-- The columns, projected, are the records projected. -/
theorem project_eq (fields : List String) :
    store.project fields = projectRows fields records.entries := by
  rw [project]
  apply ascending_ext Prod.fst
  · rw [List.pairwise_map]
    have : TransCmp fun a b : RecordId × ℕ => compare a.1 b.1 :=
      inferInstanceAs (TransCmp (compareOn Prod.fst))
    have hperm := (sortBy_perm (fun a b : RecordId × ℕ => compare a.1 b.1) store.live).map (·.1)
    have hnodup := List.pairwise_map.mp (hperm.nodup_iff.mpr (live_nodup h))
    refine ((sortBy_sorted store.live).and hnodup).imp fun {a b} hab => ?_
    exact (compare_le_iff_le.mp (Ordering.ne_gt_iff_isLE.mpr hab.1)).lt_of_ne hab.2
  · rw [projectRows, List.pairwise_map]
    exact records.sorted
  · intro r
    simp only [projectRows, List.mem_map, mem_sortBy]
    constructor
    · rintro ⟨l, hl, rfl⟩
      exact ⟨_, (mem_liveRows h).mp (List.mem_map_of_mem hl), by rw [assemble_eq h hl]⟩
    · rintro ⟨s, hs, rfl⟩
      obtain ⟨n, hn⟩ := live_of_entry h hs
      refine ⟨(s.1, n), hn, ?_⟩
      rw [assemble_eq h hn, (OrdMap.mem_entries records s.1 s.2).mp hs]
      rfl

end Held

end ColumnStore

/-! ## The first few under a key -/

/-- The values a key sorts by compare as points of a line. -/
def KeysLinked (records : OrdMap RecordId Record) (key : String) : Prop :=
  ∀ a ∈ records.entries, ∀ b ∈ records.entries, ∀ c ∈ records.entries,
    Linked (compareField (a.2.get key) (b.2.get key)) (compareField (b.2.get key) (c.2.get key))
      (compareField (a.2.get key) (c.2.get key))

theorem compareField_swap (a b : Option OrdValue) :
    compareField a b = (compareField b a).swap := by
  cases a with
  | none => cases b <;> rfl
  | some x => cases b with
    | none => rfl
    | some y => exact Value.cmp_swap x.1 y.1

/-- What a selection under one key compares of a row. -/
def candidate (key : String) (r : Row) : Candidate := (r.1, r.2.get key)

variable {key : String} {descending : Bool}

theorem rowOrder_candidate (a b : Row) :
    rowOrder [⟨key, descending⟩] a b = candidateOrder descending (candidate key a) (candidate key b) := by
  rw [rowOrder, candidateOrder, compareRows, compareRows, Ordering.then_eq]
  rfl

theorem candidateOrder_swap (a b : Candidate) :
    candidateOrder descending a b = (candidateOrder descending b a).swap := by
  rw [candidateOrder, candidateOrder, Ordering.swap_then, compareField_swap a.2,
    (OrientedCmp.eq_swap : compare a.1 b.1 = _)]
  cases descending <;> simp [directed]

theorem candidateOrder_linked {rows : List Row}
    (h : ∀ a ∈ rows, ∀ b ∈ rows, ∀ c ∈ rows,
      Linked (compareField (a.2.get key) (b.2.get key)) (compareField (b.2.get key) (c.2.get key))
        (compareField (a.2.get key) (c.2.get key)))
    {a b c : Candidate} (ha : a ∈ rows.map (candidate key)) (hb : b ∈ rows.map (candidate key))
    (hc : c ∈ rows.map (candidate key)) :
    Linked (candidateOrder descending a b) (candidateOrder descending b c)
      (candidateOrder descending a c) := by
  obtain ⟨r, hr, rfl⟩ := List.mem_map.mp ha
  obtain ⟨s, hs, rfl⟩ := List.mem_map.mp hb
  obtain ⟨t, ht, rfl⟩ := List.mem_map.mp hc
  apply Linked.lexicographic
  · cases descending with
    | false => exact h r hr s hs t ht
    | true =>
      have hdown := (h t ht s hs r hr).comm
      simpa only [directed, candidate, if_true, ← compareField_swap] using hdown
  · exact linked_compare r.1 s.1 t.1

/-- Offered in any order, the candidates of the rows leave the first few of the rows
sorted. -/
theorem select_candidates {rows : List Row} (hids : (rows.map (·.1)).Nodup)
    (hl : ∀ a ∈ rows, ∀ b ∈ rows, ∀ c ∈ rows,
      Linked (compareField (a.2.get key) (b.2.get key)) (compareField (b.2.get key) (c.2.get key))
        (compareField (a.2.get key) (c.2.get key)))
    {k : ℕ} {offers : List Candidate} (ho : offers.Perm (rows.map (candidate key))) :
    (if k = 0 then [] else selectFirst (candidateOrder descending) k offers).map (·.1) =
      ((sortRows [⟨key, descending⟩] rows).take k).map (·.1) := by
  split_ifs with hk
  · rw [hk, List.take_zero]
    rfl
  · have hapart : offers.Pairwise fun a b => candidateOrder descending a b ≠ .eq := by
      have hoffered : (offers.map (·.1)).Nodup := by
        rw [(ho.map (·.1)).nodup_iff, List.map_map]
        exact hids
      refine (List.pairwise_map.mp hoffered).imp fun {a b} hab heq => hab ?_
      exact LawfulEqCmp.eq_of_compare (Ordering.then_eq_eq.mp heq).2
    rw [selectFirst_eq (Nat.pos_of_ne_zero hk) ho candidateOrder_swap
      (fun a ha b hb c hc => candidateOrder_linked hl ha hb hc) hapart]
    have hsort : (sortBy (rowOrder [⟨key, descending⟩]) rows).map (candidate key) =
        sortBy (candidateOrder descending) (rows.map (candidate key)) :=
      sortBy_map (candidate key) rows fun a _ b _ => rowOrder_candidate a b
    rw [sortRows, ← hsort, ← List.map_take, List.map_map]
    rfl

theorem ColumnStore.topkIds_eq (h : store.Holds records) (hl : KeysLinked records key) (k : ℕ)
    {ids : List RecordId} (hids : store.topkIds key descending k = some ids) :
    ids = ((sortRows [⟨key, descending⟩] records.entries).take k).map (·.1) := by
  have hoffers : (store.live.map fun r => (r.1, store.cell key r.2)) =
      (store.liveRows records).map (candidate key) := by
    rw [liveRows, List.map_map]
    apply List.map_congr_left
    intro r hr
    rw [cell_eq h hr]
    rfl
  have hperm : (store.live.map fun r => (r.1, store.cell key r.2)).Perm
      (records.entries.map (candidate key)) := hoffers ▸ (liveRows_perm h).map _
  rw [← select_candidates records.keys_nodup hl hperm]
  rw [topkIds] at hids
  split_ifs at hids ⊢ <;> cases hids <;> rfl

theorem topK_projected (hl : KeysLinked records key) (k : ℕ) :
    (topK (projectRows [key] records.entries) [⟨key, descending⟩] k).map (·.1) =
      ((sortRows [⟨key, descending⟩] records.entries).take k).map (·.1) := by
  have hoffers : (projectRows [key] records.entries).map (candidate key) =
      records.entries.map (candidate key) := by
    rw [projectRows, List.map_map]
    apply List.map_congr_left
    intro r _
    simp [candidate, Record.get_project]
  rw [← select_candidates records.keys_nodup hl
    (List.Perm.refl (records.entries.map (candidate key))), topK]
  split_ifs with hk
  · rfl
  · rw [← hoffers, ← selectFirst_map (candidate key) rowOrder_candidate, List.map_map]
    rfl

variable {src : QuerySource} {collection : String}

theorem columns_hold (hs : src.Holds) (hc : src.store.get collection = some records)
    (hg : src.columns.get collection = some store) : store.Holds records := by
  obtain ⟨records', hr, hh⟩ := hs.columns collection store hg
  rw [hc] at hr
  cases hr
  exact hh

/-- Rows of the scan, fetched again by their ids. -/
theorem refetch {rows : List Row} (h : rows ⊆ records.entries) :
    ((rows.map (·.1)).filterMap fun id => (records.get id).map fun rec => (id, rec)) = rows := by
  induction rows with
  | nil => rfl
  | cons r rows ih =>
    have hget := (OrdMap.mem_entries records r.1 r.2).mp (h List.mem_cons_self)
    rw [List.map_cons, List.filterMap_cons, hget, ih (List.subset_of_cons_subset h)]
    rfl

/-- The winners of a top-K are the rows of a limit over a sort over a scan. -/
theorem rowsOf_columnarTopK (hs : src.Holds) (hc : src.store.get collection = some records)
    (hl : KeysLinked records key) (k : ℕ) :
    rowsOf src (.columnarTopK collection key descending k) =
      .ok ((sortRows [⟨key, descending⟩] records.entries).take k) := by
  have hwinners : (sortRows [⟨key, descending⟩] records.entries).take k ⊆ records.entries :=
    fun r hr => (mem_sortBy _).mp (List.mem_of_mem_take hr)
  have hfetch : ∀ ids, ids = ((sortRows [⟨key, descending⟩] records.entries).take k).map (·.1) →
      (List.flatten <$> do
        let rows ← fetchRows src collection ids
        return batchesOf rows) = .ok ((sortRows [⟨key, descending⟩] records.entries).take k) := by
    rintro _ rfl
    rw [fetchRows_eq hc, refetch hwinners]
    exact congrArg Except.ok (flatten_batchesOf _)
  rw [rowsOf, run, runTopK]
  cases htop : src.columnTopk collection key descending k with
  | some ids =>
    obtain ⟨store, hg, hids⟩ := Option.bind_eq_some_iff.mp htop
    exact hfetch ids (store.topkIds_eq (columns_hold hs hc hg) hl k hids)
  | none =>
    cases hg : src.columns.get collection with
    | some store =>
      have hscan : src.columnScan collection [key] = some (projectRows [key] records.entries) := by
        rw [QuerySource.columnScan, hg, ← store.project_eq (columns_hold hs hc hg)]
        rfl
      rw [hscan]
      exact hfetch _ (topK_projected hl k)
    | none =>
      have hscan : src.columnScan collection [key] = none := by
        rw [QuerySource.columnScan, hg]
        rfl
      rw [hscan]
      obtain ⟨batches, hb, hrows⟩ := map_eq_ok.mp (scanBatches_rows hc)
      rw [hb]
      refine congrArg Except.ok ((flatten_batchesOf _).trans ?_)
      rw [hrows]

end Adabt.Exec
