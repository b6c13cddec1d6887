import Adabt.Engine.ColumnCells
import Adabt.Exec.ColumnPaths
import Adabt.Library.Program
import Adabt.Storage.HeapStore

/-! # The column store is a copy of the heap

A store holds the rows it was given: under each name, the values that go with the
first one. Its live rows are the records of the heap. -/

set_option autoImplicit false

namespace Adabt.Engine
open Adabt.Core Adabt.Library Adabt.Storage

/-! ## Rows in columns -/

/-- What a field's column, if it has one, holds of the values its rows had. -/
def FieldShown : Option OrdValue → Option Column → List (Option OrdValue) → Prop
  | none, none, values => ∀ v ∈ values, v = none
  | some first, some col, values =>
    col.Shows first (values.map (Option.filter fun v => Column.fits first.1 v.1)) ∧
      some first ∈ values
  | _, _, _ => False

/-- The first values under each name once a record has been appended. -/
def noteFirsts (firsts : OrdMap String OrdValue) (rec : Record) : OrdMap String OrdValue :=
  rec.insertAll firsts.entries

theorem get_noteFirsts (firsts : OrdMap String OrdValue) (rec : Record) (name : String) :
    (noteFirsts firsts rec).get name = (firsts.get name).or (rec.get name) :=
  OrdMap.get_insertAll rec firsts.entries firsts.sorted name

/-- The integers of a record are of one signedness with, and not far above, the first
ones under their names. -/
def Tamed (firsts : OrdMap String OrdValue) (rec : Record) : Prop :=
  ∀ e ∈ rec.entries, ∀ f ∈ firsts.get e.1, Column.tame f.1 e.2.1

theorem fits_self (v : Value) : Column.fits v v = true := by
  cases v <;> rfl

theorem tame_self (v : Value) : Column.tame v v := by
  cases v with
  | i64 n => simp [Column.tame, Ahead]
  | u64 n => simp [Column.tame, Ahead]
  | _ => rfl

namespace Column

variable {first : OrdValue} {cells : List (Option OrdValue)} {col : Column}

theorem Shows.pushNulls (h : col.Shows first cells) (n : ℕ) :
    (Column.pushNull^[n] col).Shows first (cells ++ List.replicate n none) := by
  induction n generalizing col cells with
  | zero => simpa using h
  | succ n ih =>
    have hmore := ih h.pushNull
    rwa [List.append_assoc, List.singleton_append, ← List.replicate_succ] at hmore

theorem Shows.backFill (h : col.Shows first cells) (rows : ℕ) :
    (col.backFill rows).Shows first (cells ++ List.replicate (rows - cells.length) none) := by
  rw [Column.backFill, h.len_eq]
  exact h.pushNulls _

theorem Shows.backFill_full (h : col.Shows first cells) : col.backFill cells.length = col := by
  rw [Column.backFill, h.len_eq, Nat.sub_self]
  rfl

end Column

/-- The columns after the fields of a record have gone into them. -/
theorem get_appendFields (enabled : Bool) (row : ℕ) {es : List (String × OrdValue)}
    (hs : es.Pairwise fun a b => a.1 < b.1) (columns : OrdMap String Column) (name : String) :
    (es.foldl (ColumnStore.appendField enabled row) columns).get name =
      match OrdMap.find name es with
      | none => columns.get name
      | some v => some ((((columns.get name).getD (Column.forValue v)).backFill row).push enabled
          (some v)) := by
  induction es generalizing columns with
  | nil => rfl
  | cons e es ih =>
    obtain ⟨he, hrest⟩ := List.pairwise_cons.mp hs
    rw [List.foldl_cons, ih hrest, OrdMap.find]
    split_ifs with hname
    · rw [hname, OrdMap.find_none_of_lt he]
      simp only [ColumnStore.appendField, OrdMap.get_insert_self]
    · simp only [ColumnStore.appendField, OrdMap.get_insert_ne _ _ hname]

/-- A row more in a field's column. -/
theorem FieldShown.append (enabled : Bool) {first v : Option OrdValue} {col : Option Column}
    {values : List (Option OrdValue)} (h : FieldShown first col values)
    (hsize : 10 * (values.length + 1) < 2 ^ 32)
    (ht : ∀ x ∈ v, ∀ f ∈ first.or v, Column.tame f.1 x.1) :
    FieldShown (first.or v)
      ((match v with
        | none => col
        | some x => some (((col.getD (Column.forValue x)).backFill values.length).push enabled
            (some x))).map (Column.backFill (values.length + 1)))
      (values ++ [v]) := by
  have hlen : ∀ (p : OrdValue → Bool),
      (values.map (Option.filter p)).length = values.length := fun p => List.length_map _
  cases first with
  | none =>
    cases col with
    | some col => exact h.elim
    | none =>
      cases v with
      | none =>
        intro x hx
        rcases List.mem_append.mp hx with hx | hx
        · exact h x hx
        · exact List.mem_singleton.mp hx
      | some x =>
        have hnulls : values.map (Option.filter fun v => Column.fits x.1 v.1) =
            List.replicate values.length none := by
          rw [List.eq_replicate_iff]
          refine ⟨hlen _, fun c hc => ?_⟩
          obtain ⟨u, hu, rfl⟩ := List.mem_map.mp hc
          rw [h u hu]
          rfl
        have hfill := (Column.shows_forValue x).backFill values.length
        rw [List.nil_append, List.length_nil, Nat.sub_zero, ← hnulls] at hfill
        have hpush := hfill.push enabled (by rwa [hlen]) (tame_self x.1) fun _ => rfl
        refine ⟨?_, by simp⟩
        rw [List.map_append, List.map_singleton]
        have hfull := hpush.backFill_full
        rw [List.length_append, hlen, List.length_singleton] at hfull
        rw [Option.getD_none, hfull, Option.filter_some]
        exact hpush
  | some f =>
    cases col with
    | none => exact h.elim
    | some col =>
      obtain ⟨hshow, hmem⟩ := h
      have hkeep : some f ∈ values ++ [v] := List.mem_append_left _ hmem
      cases v with
      | none =>
        have hfill := hshow.backFill (values.length + 1)
        rw [hlen, Nat.add_sub_cancel_left] at hfill
        refine ⟨?_, hkeep⟩
        rw [List.map_append, List.map_singleton]
        exact hfill
      | some x =>
        have hfull := hshow.backFill_full
        rw [hlen] at hfull
        have hpush := hshow.push enabled (by rwa [hlen]) (ht x rfl f rfl) fun hnone => by
          have hf := hnone _ (List.mem_map_of_mem hmem)
          rw [Option.filter_some, fits_self, if_pos rfl] at hf
          cases hf
        have hfull' := hpush.backFill_full
        rw [List.length_append, hlen, List.length_singleton] at hfull'
        refine ⟨?_, hkeep⟩
        rw [List.map_append, List.map_singleton, Option.getD_some, hfull, hfull', Option.filter_some]
        exact hpush

/-! ## Rows in the store -/

namespace ColumnStore

/-- The rows appended so far, in their columns. -/
structure Held (store : ColumnStore) (firsts : OrdMap String OrdValue)
    (rows : List (RecordId × Record)) : Prop where
  ids : store.ids = rows.map (·.1)
  columns : ∀ name, FieldShown (firsts.get name) (store.columns.get name)
    (rows.map fun r => r.2.get name)
  size : 10 * rows.length < 2 ^ 32

variable {store : ColumnStore} {firsts : OrdMap String OrdValue} {rows : List (RecordId × Record)}

theorem held_empty : empty.Held ∅ [] := ⟨rfl, fun _ _ hv => (List.not_mem_nil hv).elim, by simp⟩

theorem Held.length_ids (h : store.Held firsts rows) : store.ids.length = rows.length := by
  rw [h.ids, List.length_map]

theorem Held.append (enabled : Bool) (h : store.Held firsts rows) (id : RecordId) {rec : Record}
    (hsize : 10 * (rows.length + 1) < 2 ^ 32) (ht : Tamed (noteFirsts firsts rec) rec) :
    (store.append enabled id rec).Held (noteFirsts firsts rec) (rows ++ [(id, rec)]) where
  ids := by rw [ColumnStore.append, h.ids, List.map_append, List.map_singleton]
  columns name := by
    have hstep := (h.columns name).append enabled (v := rec.get name) (by rwa [List.length_map])
      fun x hx f hf => ht (name, x) ((OrdMap.mem_entries rec name x).mpr hx) f (by
        rwa [get_noteFirsts])
    rw [List.length_map] at hstep
    rw [get_noteFirsts, List.map_append, List.map_singleton]
    simp only [ColumnStore.append, OrdMap.get_mapVal, get_appendFields enabled _ rec.sorted,
      h.length_ids]
    exact hstep
  size := by rwa [List.length_append, List.length_singleton]

theorem Held.setDeltaEnabled (enabled : Bool) (h : store.Held firsts rows) :
    (store.setDeltaEnabled enabled).Held firsts rows := by
  rw [ColumnStore.setDeltaEnabled]
  split_ifs
  · exact h
  · refine ⟨h.ids, fun name => ?_, h.size⟩
    have hname := h.columns name
    rw [OrdMap.get_mapVal]
    cases hf : firsts.get name with
    | none =>
      cases hc : store.columns.get name with
      | none => rwa [hf, hc] at hname
      | some col =>
        rw [hf, hc] at hname
        exact hname.elim
    | some f =>
      cases hc : store.columns.get name with
      | none =>
        rw [hf, hc] at hname
        exact hname.elim
      | some col =>
        rw [hf, hc] at hname
        exact ⟨hname.1.expand, hname.2⟩

/-- The values of a record that go with the first ones under their names. -/
def kept (firsts : OrdMap String OrdValue) (rec : Record) : Record :=
  rec.filter fun name v => (firsts.get name).all fun f => Column.fits f.1 v.1

/-- A cell holds the value of its row's record, if that goes with the column. -/
theorem Held.cell_eq (h : store.Held firsts rows) {row : ℕ} {r : RecordId × Record}
    (hr : rows[row]? = some r) (name : String) :
    ((store.columns.get name).bind fun col => col.get row) = (kept firsts r.2).get name := by
  have hname := h.columns name
  rw [kept, OrdMap.get_filter]
  cases hf : firsts.get name with
  | none =>
    cases hc : store.columns.get name with
    | some col =>
      rw [hf, hc] at hname
      exact hname.elim
    | none =>
      rw [hf, hc] at hname
      rw [hname _ (List.mem_map_of_mem (List.mem_of_getElem? hr))]
      rfl
  | some f =>
    cases hc : store.columns.get name with
    | none =>
      rw [hf, hc] at hname
      exact hname.elim
    | some col =>
      rw [hf, hc] at hname
      have hget := hname.1.get_eq (by simpa using h.size) row
      rw [Option.bind_some, hget, List.getElem?_map, List.getElem?_map, hr]
      rfl

/-! ## The live rows -/

/-- The store's live rows are the records, each in the row its id is filed under. -/
structure Copies (store : ColumnStore) (firsts : OrdMap String OrdValue)
    (rows : List (RecordId × Record)) (records : OrdMap RecordId Record) : Prop where
  held : store.Held firsts rows
  marks : store.dead.length = rows.length
  placed : ∀ id row, store.rowOf.get id = some row ↔
    store.ids[row]? = some id ∧ store.dead[row]? = some false
  heap : ∀ id, records.get id = (store.rowOf.get id).bind fun row => (rows[row]?).map (·.2)

variable {records : OrdMap RecordId Record}

theorem copies_empty : empty.Copies ∅ [] ∅ :=
  ⟨held_empty, rfl, fun id row => by simp [empty], fun _ => rfl⟩

theorem Copies.row_lt (h : store.Copies firsts rows records) {id : RecordId} {row : ℕ}
    (hr : store.rowOf.get id = some row) : row < rows.length := by
  rw [← h.marks]
  exact (List.getElem?_eq_some_iff.mp ((h.placed id row).mp hr).2).1

theorem Copies.absent_iff (h : store.Copies firsts rows records) (id : RecordId) :
    store.rowOf.get id = none ↔ records.get id = none := by
  rw [h.heap]
  cases hr : store.rowOf.get id with
  | none => simp
  | some row => simp [h.row_lt hr]

theorem Copies.markDead (h : store.Copies firsts rows records) (id : RecordId) :
    (store.markDead id).Copies firsts rows (records.erase id) := by
  rw [ColumnStore.markDead]
  cases hr : store.rowOf.get id with
  | none =>
    rw [OrdMap.erase_of_none records ((h.absent_iff id).mp hr)]
    exact h
  | some row =>
    obtain ⟨hid, hlive⟩ := (h.placed id row).mp hr
    refine ⟨⟨h.held.ids, h.held.columns, h.held.size⟩, by simpa using h.marks, fun id' row' => ?_,
      fun id' => ?_⟩
    · simp only [OrdMap.get_erase, List.getElem?_set]
      by_cases hrow : row = row'
      · subst hrow
        rw [if_pos rfl]
        constructor
        · intro hget
          split_ifs at hget with hne
          rw [h.placed, hid] at hget
          exact absurd (Option.some.inj hget.1).symm hne
        · rintro ⟨-, hdead⟩
          split_ifs at hdead <;> cases hdead
      · rw [if_neg hrow, ← h.placed]
        split_ifs with hsame
        · subst hsame
          simp [hr, hrow]
        · exact Iff.rfl
    · rw [OrdMap.get_erase, OrdMap.get_erase, h.heap]
      split_ifs <;> rfl

theorem Copies.append (enabled : Bool) (h : store.Copies firsts rows records) {id : RecordId}
    {rec : Record} (hsize : 10 * (rows.length + 1) < 2 ^ 32)
    (ht : Tamed (noteFirsts firsts rec) rec) (hnew : records.get id = none) :
    (store.append enabled id rec).Copies (noteFirsts firsts rec) (rows ++ [(id, rec)])
      (records.insert id rec) := by
  have habsent := (h.absent_iff id).mpr hnew
  have hlen := h.held.length_ids
  refine ⟨h.held.append enabled id hsize ht, by simp [ColumnStore.append, h.marks],
    fun id' row => ?_, fun id' => ?_⟩
  · simp only [ColumnStore.append, OrdMap.get_insert]
    rcases lt_trichotomy row rows.length with hlt | rfl | hgt
    · rw [List.getElem?_append_left (by omega),
        List.getElem?_append_left (by rw [h.marks]; exact hlt), ← h.placed]
      split_ifs with hid
      · subst hid
        rw [habsent, hlen]
        simp [hlt.ne']
      · exact Iff.rfl
    · rw [List.getElem?_append_right (by omega), List.getElem?_append_right (by rw [h.marks]),
        hlen, h.marks, Nat.sub_self]
      split_ifs with hid
      · simp [hid]
      · have hno : store.rowOf.get id' ≠ some rows.length :=
          fun hr => absurd (h.row_lt hr) (by simp)
        simp [hno, Ne.symm hid]
    · have hids : (store.ids ++ [id])[row]? = none := by simp; omega
      rw [hids]
      split_ifs with hid
      · rw [hlen]
        simp [hgt.ne]
      · have hno : store.rowOf.get id' ≠ some row := fun hr => absurd (h.row_lt hr) (by omega)
        simp [hno]
  · simp only [ColumnStore.append, OrdMap.get_insert]
    split_ifs with hid
    · rw [hlen, Option.bind_some, List.getElem?_append_right (le_refl _), Nat.sub_self]
      rfl
    · rw [h.heap]
      cases hr : store.rowOf.get id' with
      | none => rfl
      | some row => rw [Option.bind_some, Option.bind_some, List.getElem?_append_left (h.row_lt hr)]

/-! ## What is read -/

/-- The store with its columns spelt out, as the executor's column operators see it. -/
def view (store : ColumnStore) : Exec.ColumnStore where
  rows := store.ids.zip store.dead
  columns := store.columns.mapVal fun _ col => (List.range store.ids.length).map col.get

theorem view_cell (store : ColumnStore) (name : String) {row : ℕ} (h : row < store.ids.length) :
    store.view.cell name row = (store.columns.get name).bind fun col => col.get row := by
  rw [Exec.ColumnStore.cell, view, OrdMap.get_mapVal]
  cases store.columns.get name with
  | none => rfl
  | some col => simp [h]

theorem view_live (h : store.dead.length = store.ids.length) :
    store.view.live = store.ids.zipIdx.filter fun r => !store.isDead r.2 := by
  have hids : store.ids.zipIdx = (store.ids.zip store.dead).zipIdx.map fun r => (r.1.1, r.2) := by
    have hfst : (store.ids.zip store.dead).map Prod.fst = store.ids := List.map_fst_zip (by omega)
    conv_lhs => rw [← hfst]
    rw [List.zipIdx_map]
    rfl
  rw [hids, List.filter_map, Exec.ColumnStore.live, view]
  congr 1
  apply List.filter_congr
  intro r hr
  obtain ⟨hlt, hr1⟩ := List.mem_zipIdx' hr
  have hdead : store.dead[r.2]? = some r.1.2 := by
    rw [hr1, List.getElem_zip]
    exact List.getElem?_eq_getElem _
  rw [Function.comp, isDead, hdead, Option.getD_some]

theorem view_assemble (store : ColumnStore) (fields : List String) {row : ℕ}
    (h : row < store.ids.length) : store.view.assemble fields row = store.assemble fields row := by
  rw [Exec.ColumnStore.assemble, assemble]
  congr 1
  funext rec f
  rw [view_cell store f h]
  cases store.columns.get f <;> rfl

theorem Copies.mem_live (h : store.Copies firsts rows records) (r : RecordId × ℕ) :
    r ∈ store.view.live ↔ store.rowOf.get r.1 = some r.2 := by
  rw [view_live (by rw [h.marks, h.held.length_ids]), List.mem_filter, List.mem_zipIdx_iff_getElem?,
    h.placed, isDead]
  apply and_congr_right
  intro _
  cases hd : store.dead[r.2]? with
  | none => simp
  | some b => simp

/-- The executor's column operators are handed the records less what their columns could
not hold. -/
theorem Copies.holds (h : store.Copies firsts rows records) :
    store.view.Holds (records.mapVal fun _ rec => kept firsts rec) where
  ids := by
    have hnodup : (store.view.live.map (·.1)).Nodup := by
      have hlive : store.view.live = _ := view_live (by rw [h.marks, h.held.length_ids])
      apply List.Nodup.map_on
      · intro a ha b hb hab
        have hrow : some a.2 = some b.2 := by
          rw [← (h.mem_live a).mp ha, ← (h.mem_live b).mp hb, hab]
        exact Prod.ext hab (Option.some.inj hrow)
      · rw [hlive]
        exact (List.Nodup.of_map Prod.snd (by
          rw [List.zipIdx_map_snd]
          exact List.nodup_range')).filter _
    refine (List.perm_ext_iff_of_nodup hnodup (OrdMap.keys_nodup _)).mpr fun id => ?_
    rw [OrdMap.keys_mapVal, OrdMap.mem_keys, List.mem_map]
    constructor
    · rintro ⟨r, hr, rfl⟩
      rw [h.mem_live] at hr
      rw [h.heap, hr, Option.bind_some, List.getElem?_eq_getElem (h.row_lt hr)]
      rfl
    · intro hid
      cases hr : store.rowOf.get id with
      | none =>
        rw [(h.absent_iff id).mp hr] at hid
        cases hid
      | some row => exact ⟨(id, row), (h.mem_live _).mpr hr, rfl⟩
  cells r hr rec hrec name := by
    rw [h.mem_live] at hr
    have hlt := h.row_lt hr
    rw [OrdMap.get_mapVal, h.heap, hr, Option.bind_some] at hrec
    obtain ⟨stored, hstored, rfl⟩ := Option.map_eq_some_iff.mp (Option.mem_def.mp hrec)
    obtain ⟨row, hrow, rfl⟩ := Option.map_eq_some_iff.mp hstored
    rw [view_cell store name (by rwa [h.held.length_ids]), h.held.cell_eq hrow]

theorem Copies.project_eq (h : store.Copies firsts rows records) (fields : List String) :
    store.project fields =
      records.entries.map fun r => (r.1, (kept firsts r.2).project fields) := by
  have hview : store.project fields = store.view.project fields := by
    rw [project, Exec.ColumnStore.project, ← view_live (by rw [h.marks, h.held.length_ids])]
    apply List.map_congr_left
    intro r hr
    rw [mem_sortBy, h.mem_live] at hr
    rw [view_assemble store fields (by rw [h.held.length_ids]; exact h.row_lt hr)]
  rw [hview, Exec.ColumnStore.project_eq h.holds, Exec.projectRows, OrdMap.mapVal, List.map_map]
  rfl

theorem Copies.get_eq (h : store.Copies firsts rows records) (id : RecordId)
    (fields : List String) :
    store.get id fields = (records.get id).map fun rec => (kept firsts rec).project fields := by
  rw [get]
  cases hr : store.rowOf.get id with
  | none =>
    rw [(h.absent_iff id).mp hr]
    rfl
  | some row =>
    obtain ⟨hid, hlive⟩ := (h.placed id row).mp hr
    have hlt := h.row_lt hr
    have hrec : records.get id = some rows[row].2 := by
      rw [h.heap, hr, Option.bind_some, List.getElem?_eq_getElem hlt]
      rfl
    have hmem := (h.mem_live (id, row)).mpr hr
    have hassemble := Exec.ColumnStore.assemble_eq h.holds hmem fields
    rw [view_assemble store fields (by rwa [h.held.length_ids]), OrdMap.get_mapVal, hrec] at hassemble
    simp only [Option.bind_eq_bind, Option.bind_some, isDead, hlive, Option.getD_some, hrec,
      Option.map_some, hassemble]
    rfl

end ColumnStore

/-! ## Runs -/

/-- A collection's records and its column store, if one was built. -/
structure Copied where
  records : OrdMap RecordId Record
  store : Option ColumnStore
  deltaEnabled : Bool
  /-- The first value appended under each name since the store was built. -/
  firsts : OrdMap String OrdValue

inductive ColumnCommand where
  | build
  /-- What an insert and an update do: the old row is marked dead and a new one appended. -/
  | reindexInsert (id : RecordId) (rec : Record)
  | reindexRemove (id : RecordId)
  | setDelta (on : Bool)

def firstsOf (rows : List (RecordId × Record)) : OrdMap String OrdValue :=
  rows.foldl (fun firsts r => noteFirsts firsts r.2) ∅

/-- Rows that may be appended after some: their integers are tame, and there is room. -/
def Appendable : OrdMap String OrdValue → ℕ → List (RecordId × Record) → Prop
  | _, _, [] => True
  | firsts, n, r :: rest =>
    Tamed (noteFirsts firsts r.2) r.2 ∧ 10 * (n + 1) < 2 ^ 32 ∧
      Appendable (noteFirsts firsts r.2) (n + 1) rest

namespace ColumnCommand

def step : ColumnCommand → Copied → Copied
  | build, s =>
    { s with
      store := some (ColumnStore.build s.deltaEnabled s.records.entries)
      firsts := firstsOf s.records.entries }
  | reindexInsert id rec, s =>
    let stored := normalizeForStorage rec
    { s with
      records := s.records.insert id stored
      store := s.store.map fun store => (store.markDead id).append s.deltaEnabled id stored
      firsts := noteFirsts s.firsts stored }
  | reindexRemove id, s =>
    { s with
      records := s.records.erase id
      store := s.store.map fun store => store.markDead id }
  | setDelta on, s =>
    { s with
      deltaEnabled := on
      store := s.store.map fun store => store.setDeltaEnabled on }

def Fitting : ColumnCommand → Copied → Prop
  | build, s => Appendable ∅ 0 s.records.entries
  | reindexInsert id rec, s =>
    ∀ store ∈ s.store, Appendable s.firsts store.ids.length [(id, normalizeForStorage rec)]
  | _, _ => True

end ColumnCommand

instance (firsts : OrdMap String OrdValue) (rec : Record) : Decidable (Tamed firsts rec) :=
  inferInstanceAs (Decidable (∀ e ∈ rec.entries, ∀ f ∈ firsts.get e.1, Column.tame f.1 e.2.1))

def decideAppendable : (firsts : OrdMap String OrdValue) → (n : ℕ) →
    (rows : List (RecordId × Record)) → Decidable (Appendable firsts n rows)
  | _, _, [] => isTrue trivial
  | firsts, n, r :: rest =>
    have := decideAppendable (noteFirsts firsts r.2) (n + 1) rest
    inferInstanceAs (Decidable (_ ∧ _ ∧ _))

instance (firsts : OrdMap String OrdValue) (n : ℕ) (rows : List (RecordId × Record)) :
    Decidable (Appendable firsts n rows) := decideAppendable firsts n rows

instance : (c : ColumnCommand) → (s : Copied) → Decidable (c.Fitting s)
  | .build, s => inferInstanceAs (Decidable (Appendable ∅ 0 s.records.entries))
  | .reindexInsert id rec, s => inferInstanceAs (Decidable (∀ store ∈ s.store,
      Appendable s.firsts store.ids.length [(id, normalizeForStorage rec)]))
  | .reindexRemove _, _ => isTrue trivial
  | .setDelta _, _ => isTrue trivial

/-- A store that was built is a copy of the records. -/
def Copied.Sound (s : Copied) : Prop :=
  ∀ store ∈ s.store, ∃ rows, store.Copies s.firsts rows s.records

theorem copies_build {store : ColumnStore} {firsts : OrdMap String OrdValue}
    {rows es : List (RecordId × Record)} {records : OrdMap RecordId Record} (enabled : Bool)
    (h : store.Copies firsts rows records) (ha : Appendable firsts rows.length es)
    (hs : es.Pairwise fun a b => a.1 < b.1) (hnew : ∀ e ∈ es, records.get e.1 = none) :
    ∃ rows', (es.foldl (fun store r => store.append enabled r.1 r.2) store).Copies
      (es.foldl (fun firsts r => noteFirsts firsts r.2) firsts) rows' (records.insertAll es) := by
  induction es generalizing store firsts rows records with
  | nil => exact ⟨rows, h⟩
  | cons e es ih =>
    obtain ⟨htame, hroom, hrest⟩ := ha
    obtain ⟨hlt, hes⟩ := List.pairwise_cons.mp hs
    have hone := h.append enabled hroom htame (hnew e List.mem_cons_self)
    refine ih hone (by rwa [List.length_append, List.length_singleton]) hes fun e' he' => ?_
    rw [OrdMap.get_insert_ne _ _ (hlt e' he').ne']
    exact hnew e' (List.mem_cons_of_mem _ he')

theorem step_copied (c : ColumnCommand) (s : Copied) (h : s.Sound) (hg : c.Fitting s) :
    (c.step s).Sound := by
  intro store hstore
  cases c with
  | build =>
    obtain rfl := Option.some.inj hstore
    obtain ⟨rows, hrows⟩ := copies_build s.deltaEnabled ColumnStore.copies_empty hg
      s.records.sorted fun _ _ => rfl
    rw [OrdMap.insertAll_entries] at hrows
    exact ⟨rows, hrows⟩
  | reindexInsert id rec =>
    obtain ⟨old, hold, rfl⟩ := Option.map_eq_some_iff.mp hstore
    obtain ⟨rows, hrows⟩ := h old hold
    obtain ⟨htame, hroom, -⟩ := hg old hold
    rw [hrows.held.length_ids] at hroom
    have hone := (hrows.markDead id).append s.deltaEnabled hroom htame (OrdMap.get_erase_self _ _)
    have hrecords : (s.records.erase id).insert id (normalizeForStorage rec) =
        s.records.insert id (normalizeForStorage rec) := by
      ext j : 1
      rw [OrdMap.get_insert, OrdMap.get_insert, OrdMap.get_erase]
      split_ifs <;> rfl
    rw [hrecords] at hone
    exact ⟨_, hone⟩
  | reindexRemove id =>
    obtain ⟨old, hold, rfl⟩ := Option.map_eq_some_iff.mp hstore
    obtain ⟨rows, hrows⟩ := h old hold
    exact ⟨rows, hrows.markDead id⟩
  | setDelta on =>
    obtain ⟨old, hold, rfl⟩ := Option.map_eq_some_iff.mp hstore
    obtain ⟨rows, hrows⟩ := h old hold
    refine ⟨rows, hrows.held.setDeltaEnabled on, ?_, ?_, ?_⟩ <;>
      cases on
    · exact hrows.marks
    · exact hrows.marks
    · exact hrows.placed
    · exact hrows.placed
    · exact hrows.heap
    · exact hrows.heap

/-- Whatever was built, written, updated, deleted and re-encoded, the store projects every
record once, in id order, less the values that do not go with the first under their name,
and a point read agrees. -/
theorem copied_rows {s : Copied} (hs : s.store = none) {cs : List ColumnCommand}
    (h : Guarded ColumnCommand.step ColumnCommand.Fitting s cs) {store : ColumnStore}
    (hst : (run ColumnCommand.step s cs).store = some store) (fields : List String) :
    store.project fields = (run ColumnCommand.step s cs).records.entries.map (fun r =>
        (r.1, (ColumnStore.kept (run ColumnCommand.step s cs).firsts r.2).project fields)) ∧
      ∀ id, store.get id fields = ((run ColumnCommand.step s cs).records.get id).map fun rec =>
        (ColumnStore.kept (run ColumnCommand.step s cs).firsts rec).project fields := by
  have hstart : s.Sound := by
    intro st hst
    rw [hs] at hst
    cases hst
  have hsound := run_invariant step_copied hstart h
  obtain ⟨rows, hrows⟩ := hsound store hst
  exact ⟨hrows.project_eq fields, fun id => hrows.get_eq id fields⟩

/-- Every kind of column, an update that moves a row, and two values that do not go with
the first under their names. -/
def mixedRun : List ColumnCommand :=
  [.reindexInsert 4 (((∅ : Record).set "n" ⟨.i64 7, trivial⟩).set "s" ⟨.str "a", trivial⟩), .build,
    .reindexInsert 2 (((∅ : Record).set "n" ⟨.i64 9, trivial⟩).set "b" ⟨.bool true, trivial⟩),
    .reindexInsert 3 (((∅ : Record).set "n" ⟨.str "x", trivial⟩).set "s" ⟨.str "b", trivial⟩),
    .reindexInsert 4 (((∅ : Record).set "n" ⟨.i64 3, trivial⟩).set "b" ⟨.null, trivial⟩),
    .reindexInsert 5 ((∅ : Record).set "u" ⟨.u64 1, trivial⟩), .setDelta false,
    .reindexRemove 5, .reindexInsert 6 ((∅ : Record).set "b" ⟨.u64 1, trivial⟩)]

def mixedStart : Copied := ⟨∅, none, true, ∅⟩

theorem copied_rows_mixed : ∃ store,
    (run ColumnCommand.step mixedStart mixedRun).store = some store ∧
      store.project ["n", "b"] =
        (run ColumnCommand.step mixedStart mixedRun).records.entries.map fun r =>
          (r.1, (ColumnStore.kept (run ColumnCommand.step mixedStart mixedRun).firsts
            r.2).project ["n", "b"]) := by
  obtain ⟨store, hst⟩ := Option.isSome_iff_exists.mp (show
    (run ColumnCommand.step mixedStart mixedRun).store.isSome = true by decide)
  exact ⟨store, hst, (copied_rows rfl (by decide) hst ["n", "b"]).1⟩

def textAfterBool : List ColumnCommand :=
  [.build, .reindexInsert 1 ((∅ : Record).set "x" ⟨.bool true, trivial⟩),
    .reindexInsert 2 ((∅ : Record).set "x" ⟨.str "a", trivial⟩)]

/-- Text under a name whose first value was a boolean is in the heap's record and not in
the store's. -/
theorem column_forgets : ∃ store,
    (run ColumnCommand.step mixedStart textAfterBool).store = some store ∧
      store.project ["x"] ≠
        (run ColumnCommand.step mixedStart textAfterBool).records.entries.map fun r =>
          (r.1, r.2.project ["x"]) := by
  obtain ⟨store, hst⟩ := Option.isSome_iff_exists.mp (show
    (run ColumnCommand.step mixedStart textAfterBool).store.isSome = true by decide)
  refine ⟨store, hst, fun heq => ?_⟩
  have hsizes : (run ColumnCommand.step mixedStart textAfterBool).store.map (fun store =>
      (store.project ["x"]).map fun r => r.2.size) = some [1, 0] := by decide
  rw [hst, Option.map_some, heq] at hsizes
  revert hsizes
  decide

end Adabt.Engine
