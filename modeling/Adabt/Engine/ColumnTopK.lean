import Adabt.Core.ValueOrder
import Adabt.Engine.ColumnCopy
import Adabt.Exec.ColumnPaths

/-! # The first few ids of a column

The store chooses among the cells of one column, in whatever order its rows
stand, and the ids it chooses are those of a sort of the records. -/

set_option autoImplicit false

/-! ## The first few of a sort

Under any keys the bounded heap ends with what a sort would put first, as long as
the values compare as a total order does and no two rows share an id. -/

namespace Adabt.Exec
open Std
open Adabt.Core Adabt.Ir Adabt.Library

/-- The values that rows hold under a field. -/
def HeldUnder (rows : List Row) (field : String) (v : Value) : Prop :=
  ∃ r ∈ rows, (r.2.get field).map (·.1) = some v

theorem compareField_linked {p : Value → Prop} (h : Value.TotalOrderOn p)
    {a b c : Option OrdValue} (ha : ∀ v ∈ a, p v.1) (hb : ∀ v ∈ b, p v.1) (hc : ∀ v ∈ c, p v.1) :
    Linked (compareField a b) (compareField b c) (compareField a c) := by
  cases a with
  | none =>
    cases b with
    | none =>
      intro _ _
      rfl
    | some y =>
      intro hab _
      exact absurd rfl hab
  | some x =>
    cases b with
    | none =>
      cases c with
      | none =>
        intro _ _
        rfl
      | some z =>
        intro _ hbc
        exact absurd rfl hbc
    | some y =>
      cases c with
      | none =>
        intro hab _
        change Ordering.lt = (x.1.cmp y.1).then .lt
        change x.1.cmp y.1 ≠ .gt at hab
        cases hxy : x.1.cmp y.1 with
        | gt => exact absurd hxy hab
        | lt => rfl
        | eq => rfl
      | some z => exact Value.linked_of_totalOrder h (ha x rfl) (hb y rfl) (hc z rfl)

theorem directed_linked {o₁ o₂ o₃ : Ordering} (descending : Bool)
    (h : Linked o₁ o₂ o₃) (hdown : Linked o₂.swap o₁.swap o₃.swap) :
    Linked (directed descending o₁) (directed descending o₂) (directed descending o₃) := by
  cases descending with
  | false => exact h
  | true => exact hdown.comm

theorem compareRows_swap (a b : Record) (keys : List SortKey) :
    compareRows a b keys = (compareRows b a keys).swap := by
  induction keys with
  | nil => rfl
  | cons k keys ih =>
    rw [compareRows, compareRows, ih, Ordering.swap_then, compareField_swap (a.get k.field)]
    cases k.descending <;> simp [directed]

theorem rowOrder_swap (keys : List SortKey) (a b : Row) :
    rowOrder keys a b = (rowOrder keys b a).swap := by
  rw [rowOrder, rowOrder, Ordering.swap_then, compareRows_swap a.2,
    (OrientedCmp.eq_swap : compare a.1 b.1 = _)]

variable {rows : List Row}

theorem field_linked {field : String} (h : Value.TotalOrderOn (HeldUnder rows field)) :
    ∀ a ∈ rows, ∀ b ∈ rows, ∀ c ∈ rows,
      Linked (compareField (a.2.get field) (b.2.get field))
        (compareField (b.2.get field) (c.2.get field))
        (compareField (a.2.get field) (c.2.get field)) := by
  have held : ∀ r ∈ rows, ∀ v ∈ r.2.get field, HeldUnder rows field v.1 := by
    intro r hr v hv
    exact ⟨r, hr, by rw [Option.mem_def.mp hv]; rfl⟩
  intro a ha b hb c hc
  exact compareField_linked h (held a ha) (held b hb) (held c hc)

theorem compareRows_linked {keys : List SortKey}
    (h : ∀ key ∈ keys, Value.TotalOrderOn (HeldUnder rows key.field))
    {a b c : Row} (ha : a ∈ rows) (hb : b ∈ rows) (hc : c ∈ rows) :
    Linked (compareRows a.2 b.2 keys) (compareRows b.2 c.2 keys) (compareRows a.2 c.2 keys) := by
  induction keys with
  | nil =>
    intro _ _
    rfl
  | cons k keys ih =>
    have hk := field_linked (h k List.mem_cons_self)
    refine Linked.lexicographic (directed_linked k.descending (hk a ha b hb c hc) ?_)
      (ih fun key hkey => h key (List.mem_cons_of_mem _ hkey))
    -- Downwards the three stand the other way round.
    simpa only [← compareField_swap] using hk c hc b hb a ha

theorem rowOrder_linked {keys : List SortKey}
    (h : ∀ key ∈ keys, Value.TotalOrderOn (HeldUnder rows key.field))
    {a b c : Row} (ha : a ∈ rows) (hb : b ∈ rows) (hc : c ∈ rows) :
    Linked (rowOrder keys a b) (rowOrder keys b c) (rowOrder keys a c) :=
  Linked.lexicographic (compareRows_linked h ha hb hc) (linked_compare a.1 b.1 c.1)

theorem rowOrder_apart (keys : List SortKey) (hids : (rows.map (·.1)).Nodup) :
    rows.Pairwise fun a b => rowOrder keys a b ≠ .eq := by
  refine (List.pairwise_map.mp hids).imp fun {a b} hab heq => hab ?_
  exact LawfulEqCmp.eq_of_compare (Ordering.then_eq_eq.mp heq).2

theorem topK_eq {keys : List SortKey} (hids : (rows.map (·.1)).Nodup)
    (h : ∀ key ∈ keys, Value.TotalOrderOn (HeldUnder rows key.field)) (k : ℕ) :
    topK rows keys k = (sortRows keys rows).take k := by
  rw [topK]
  split_ifs with hk
  · rw [hk, List.take_zero]
  · exact selectFirst_eq (Nat.pos_of_ne_zero hk) (List.Perm.refl rows) (rowOrder_swap keys)
      (fun a ha b hb c hc => rowOrder_linked h ha hb hc) (rowOrder_apart keys hids)

end Adabt.Exec

/-! ## Choosing among cells -/

namespace Adabt.Engine
open Adabt.Core Adabt.Ir Adabt.Exec Adabt.Library

namespace ColumnStore

/-- Where the rows stand that are not dead. -/
def liveRows (store : ColumnStore) : List (RecordId × ℕ) :=
  store.ids.zipIdx.filter fun l => !store.isDead l.2

/-- The ids whose values come first, chosen over raw cells with a bounded heap. `none` when
the store does not hold the field. -/
def topkIds (store : ColumnStore) (field : String) (descending : Bool) (k : ℕ) :
    Option (List RecordId) := do
  let col ← store.columns.get field
  if k = 0 then some []
  else some ((selectFirst (candidateOrder descending) k
    (store.liveRows.map fun l => (l.1, col.get l.2))).map (·.1))

/-- What a row's cells spell out. -/
def recordAt (store : ColumnStore) (row : ℕ) : Record :=
  store.columns.filterMapVal fun _ col => col.get row

/-- The live rows are the given rows, whatever order they stand in. -/
structure Faithful (store : ColumnStore) (rows : List Row) : Prop where
  ids : (store.liveRows.map (·.1)).Perm (rows.map (·.1))
  cells : ∀ l ∈ store.liveRows, ∀ r ∈ rows, r.1 = l.1 → store.recordAt l.2 = r.2

variable {store : ColumnStore} {rows : List Row}

theorem faithful_perm (h : store.Faithful rows) (hids : (rows.map (·.1)).Nodup) :
    (store.liveRows.map fun l => (l.1, store.recordAt l.2)).Perm rows := by
  have hlive : (store.liveRows.map fun l => (l.1, store.recordAt l.2)).map (·.1) =
      store.liveRows.map (·.1) := by
    rw [List.map_map]
    rfl
  refine (List.perm_ext_iff_of_nodup (.of_map (·.1) ?_) (.of_map (·.1) hids)).mpr fun r => ?_
  · rw [hlive]
    exact h.ids.nodup_iff.mpr hids
  rw [List.mem_map]
  constructor
  · rintro ⟨l, hl, rfl⟩
    obtain ⟨r, hr, hid⟩ := List.mem_map.mp (h.ids.mem_iff.mp (List.mem_map_of_mem hl))
    rw [h.cells l hl r hr hid, ← hid]
    exact hr
  · intro hr
    obtain ⟨l, hl, hid⟩ := List.mem_map.mp (h.ids.mem_iff.mpr (List.mem_map_of_mem hr))
    exact ⟨l, hl, Prod.ext hid (h.cells l hl r hr hid.symm)⟩

/-- A column's cells are the candidates of the rows. -/
theorem faithful_candidates (h : store.Faithful rows) (hids : (rows.map (·.1)).Nodup)
    {key : String} {col : Column} (hcol : store.columns.get key = some col) :
    (store.liveRows.map fun l => (l.1, col.get l.2)).Perm (rows.map (candidate key)) := by
  have hcells : (store.liveRows.map fun l => (l.1, col.get l.2)) =
      (store.liveRows.map fun l => (l.1, store.recordAt l.2)).map (candidate key) := by
    rw [List.map_map]
    apply List.map_congr_left
    intro l _
    rw [Function.comp, candidate, recordAt, OrdMap.get_filterMapVal, hcol]
    rfl
  rw [hcells]
  exact (faithful_perm h hids).map _

/-- What the store chooses under one key, if it holds that field at all. -/
theorem topkIds_faithful (h : store.Faithful rows) (hids : (rows.map (·.1)).Nodup)
    {key : SortKey} (hcmp : Value.TotalOrderOn (HeldUnder rows key.field)) (k : ℕ) :
    store.topkIds key.field key.descending k =
      if store.columns.contains key.field then some (((sortRows [key] rows).take k).map (·.1))
      else none := by
  rw [topkIds, OrdMap.contains]
  cases hcol : store.columns.get key.field with
  | none => rfl
  | some col =>
    have hchosen := @select_candidates _ key.descending _ hids
      (field_linked hcmp) k _ (faithful_candidates h hids hcol)
    change (if k = 0 then some [] else some _) = some _
    rw [← hchosen]
    split_ifs <;> rfl

/-- The store that a run of inserts and removals leaves is faithful to what it kept of the
records. -/
theorem Copies.faithful {firsts : OrdMap String OrdValue} {stored : List (RecordId × Record)}
    {records : OrdMap RecordId Record} (h : store.Copies firsts stored records) :
    store.Faithful (records.mapVal fun _ rec => kept firsts rec).entries := by
  have hlive : store.view.live = store.liveRows := view_live (by rw [h.marks, h.held.length_ids])
  refine ⟨?_, ?_⟩
  · rw [← hlive]
    exact h.holds.ids
  · intro l hl r hr hid
    rw [← hlive] at hl
    have hrow : l.2 < store.ids.length := by
      rw [h.held.length_ids]
      exact h.row_lt ((h.mem_live l).mp hl)
    ext name : 1
    rw [recordAt, OrdMap.get_filterMapVal, ← view_cell store name hrow]
    exact h.holds.cells l hl r.2 (hid ▸ (OrdMap.mem_entries _ r.1 r.2).mp hr) name

/-- Ties and a missing key. -/
def tiedRows : List Row :=
  [(1, (∅ : Record).set "n" ⟨.i64 5, trivial⟩), (2, ∅), (3, (∅ : Record).set "n" ⟨.i64 5, trivial⟩),
    (4, (∅ : Record).set "n" ⟨.i64 7, trivial⟩)]

/-- The same rows in another order, and a dead one. -/
def tiedStore : ColumnStore :=
  let store := [4, 2, 9, 3, 1].foldl (fun store id => store.append false id
    (((tiedRows.find? (·.1 = id)).map (·.2)).getD ((∅ : Record).set "n" ⟨.i64 0, trivial⟩))) empty
  store.markDead 9

theorem tied_faithful : tiedStore.Faithful tiedRows := by
  have hlive : tiedStore.liveRows = [(4, 0), (2, 1), (3, 3), (1, 4)] := by decide
  refine ⟨by decide, ?_⟩
  intro l hl r hr hid
  rw [hlive] at hl
  simp only [tiedRows, List.mem_cons, List.not_mem_nil, or_false] at hl hr
  rcases hl with rfl | rfl | rfl | rfl <;> rcases hr with rfl | rfl | rfl | rfl <;>
    first | rfl | exact absurd hid (by decide)

theorem tied_values : Value.TotalOrderOn (HeldUnder tiedRows "n") := by
  apply Value.totalOrder_of_linked
  have held : ∀ v, HeldUnder tiedRows "n" v → v ∈ [.i64 5, .i64 5, .i64 7] := by
    intro v hv
    exact List.mem_filterMap.mpr hv
  have hlinked : ∀ x ∈ [Value.i64 5, .i64 5, .i64 7], ∀ y ∈ [Value.i64 5, .i64 5, .i64 7],
      ∀ z ∈ [Value.i64 5, .i64 5, .i64 7],
        x.cmp y ≠ .gt → y.cmp z ≠ .gt → x.cmp z = (x.cmp y).then (y.cmp z) := by decide
  intro x y z hx hy hz
  exact hlinked x (held x hx) y (held y hy) z (held z hz)

end ColumnStore

end Adabt.Engine
