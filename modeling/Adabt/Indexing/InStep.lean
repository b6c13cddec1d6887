import Adabt.Indexing.Upkeep

/-! # Indexes in step

An index that is told of every record that comes and of every record that goes
holds what an index built over the records would hold: the same keys with the
same ids, and the same projections. -/

set_option autoImplicit false

namespace Adabt.Indexing
open Adabt.Core Adabt.Ir Adabt.Library

/-- Values that a map can tell apart: their order is total and equal ones hash alike. -/
structure Orderly (K : Value → Prop) : Prop where
  linked : ∀ a b c, K a → K b → K c → Linked (a.cmp b) (b.cmp c) (a.cmp c)
  hashed : ∀ a b, K a → K b → a.cmp b = .eq → a.hashBytes = b.hashBytes

theorem Orderly.inOrder {K : Value → Prop} (h : Orderly K) (kind : IndexKind) {keys : List Value}
    (hk : ∀ k ∈ keys, K k) : KeysInOrder kind keys where
  linked := fun a ha b hb c hc => h.linked a b c (hk a ha) (hk b hb) (hk c hc)
  hashed := fun _ a ha b hb => h.hashed a b (hk a ha) (hk b hb)

namespace IndexShape

/-- What stands beside the id of a record. -/
def rowFor (shape : IndexShape) (rec : Record) : Option Record :=
  match shape with
  | covering _ covers => (shape.keyFor rec).map fun _ => rec.project covers
  | _ => none

/-- The index makes the same of both records. -/
def Alike (shape : IndexShape) (rec rec' : Record) : Prop :=
  shape.key rec = shape.key rec' ∧ shape.rowFor rec = shape.rowFor rec'

theorem Alike.refl (shape : IndexShape) (rec : Record) : shape.Alike rec rec := ⟨rfl, rfl⟩

theorem key_of_admits {shape : IndexShape} {rec : Record} (h : shape.admits rec = true) :
    shape.key rec = shape.keyFor rec := if_pos h

end IndexShape

namespace Index

variable {K : Value → Prop} {i j : Index} {records : OrdMap RecordId Record} {id : RecordId}
  {rec rec' : Record}

def wants (shape : IndexShape) (records : OrdMap RecordId Record) (id : RecordId) : Option Value :=
  (records.get id).bind shape.key

/-- The index holds what the records ask of it, and no value outside `K` is in play. -/
structure InStep (K : Value → Prop) (i : Index) (records : OrdMap RecordId Record) : Prop where
  filed : Filed i.kind i.entries (wants i.shape records)
  rows : ∀ id, i.rows.get id = (records.get id).bind i.shape.rowFor
  stored : ∀ e ∈ i.entries, K e.1
  wanted : ∀ id, ∀ k ∈ wants i.shape records id, K k

theorem wants_insert (shape : IndexShape) (records : OrdMap RecordId Record) (id : RecordId)
    (rec : Record) : wants shape (records.insert id rec) =
      Function.update (wants shape records) id (shape.key rec) := by
  funext x
  unfold wants
  rw [OrdMap.get_insert]
  by_cases hx : x = id
  · rw [if_pos hx, hx, Function.update_self, Option.bind_some]
  · rw [if_neg hx, Function.update_of_ne hx]

theorem wants_erase (shape : IndexShape) (records : OrdMap RecordId Record) (id : RecordId) :
    wants shape (records.erase id) = Function.update (wants shape records) id none := by
  funext x
  unfold wants
  rw [OrdMap.get_erase]
  by_cases hx : x = id
  · rw [if_pos hx, hx, Function.update_self, Option.bind_none]
  · rw [if_neg hx, Function.update_of_ne hx]

theorem new_inStep (K : Value → Prop) (shape : IndexShape) (kind : IndexKind) :
    InStep K (new shape kind) ∅ where
  filed := { complete := nofun, sound := nofun, ids := nofun, filled := nofun, keys := .nil }
  rows := fun _ => rfl
  stored := nofun
  wanted := nofun

/-! ## The two calls -/

@[simp] theorem shape_indexRecord (i : Index) (id : RecordId) (rec : Record) :
    (i.indexRecord id rec).shape = i.shape := by
  unfold indexRecord
  split
  all_goals repeat' split
  all_goals rfl

@[simp] theorem kind_indexRecord (i : Index) (id : RecordId) (rec : Record) :
    (i.indexRecord id rec).kind = i.kind := by
  unfold indexRecord
  split
  all_goals repeat' split
  all_goals rfl

@[simp] theorem shape_unindexRecord (i : Index) (id : RecordId) (rec : Record) :
    (i.unindexRecord id rec).shape = i.shape := by
  unfold unindexRecord
  cases hk : i.shape.keyFor rec <;> dsimp only <;> split <;> rfl

@[simp] theorem kind_unindexRecord (i : Index) (id : RecordId) (rec : Record) :
    (i.unindexRecord id rec).kind = i.kind := by
  unfold unindexRecord
  cases hk : i.shape.keyFor rec <;> dsimp only <;> split <;> rfl

theorem entries_indexRecord_some {k : Value} (hk : i.shape.key rec = some k) :
    (i.indexRecord id rec).entries = insertKey i.kind k id i.entries := by
  unfold IndexShape.key at hk
  split_ifs at hk with ha
  unfold indexRecord
  split
  · rw [hk]
    rfl
  · rw [hk]
    rfl
  · rw [hk]
    rfl
  · rw [if_pos ha, hk]
    rfl

/-- Told of a record without a key, an index files nothing. -/
theorem entries_indexRecord_none (hk : i.shape.key rec = none) :
    (i.indexRecord id rec).entries = i.entries ∨
      ∃ v, (i.indexRecord id rec).entries = removeKey i.kind v id i.entries := by
  unfold IndexShape.key at hk
  unfold indexRecord
  split_ifs at hk with ha
  · left
    split
    · rw [hk]
    · rw [hk]
    · rw [hk]
    · rw [if_pos ha, hk]
  · split
    · next hs => exact absurd (by rw [hs]; rfl) ha
    · next hs => exact absurd (by rw [hs]; rfl) ha
    · next hs => exact absurd (by rw [hs]; rfl) ha
    · rw [if_neg ha]
      split
      · exact .inr ⟨_, rfl⟩
      · exact .inl rfl

/-- A covering index keeps the projection of the record, any other index keeps none. -/
theorem rows_indexRecord (i : Index) (id : RecordId) (rec : Record) :
    ((∀ r, i.shape.rowFor r = none) ∧ (i.indexRecord id rec).rows = i.rows) ∨
      (i.indexRecord id rec).rows = match i.shape.rowFor rec with
        | some row => i.rows.insert id row
        | none => i.rows.erase id := by
  unfold indexRecord IndexShape.rowFor
  cases hs : i.shape with
  | single f | composite fs =>
    refine .inl ⟨fun _ => rfl, ?_⟩
    dsimp only
    split <;> rfl
  | covering f covers =>
    right
    dsimp only
    cases (IndexShape.covering f covers).keyFor rec <;> rfl
  | partialIndex f p c =>
    refine .inl ⟨fun _ => rfl, ?_⟩
    dsimp only
    repeat' split
    all_goals rfl

theorem entries_unindexRecord (i : Index) (id : RecordId) (rec : Record) :
    (i.unindexRecord id rec).entries = match i.shape.keyFor rec with
      | some k => removeKey i.kind k id i.entries
      | none => i.entries := by
  unfold unindexRecord
  cases hk : i.shape.keyFor rec <;> dsimp only <;> split <;> rfl

theorem rows_unindexRecord (i : Index) (id : RecordId) (rec : Record) :
    ((∀ r, i.shape.rowFor r = none) ∧ (i.unindexRecord id rec).rows = i.rows) ∨
      (i.unindexRecord id rec).rows = i.rows.erase id := by
  have hnone : (∀ f covers, i.shape ≠ .covering f covers) → ∀ r, i.shape.rowFor r = none := by
    intro hs r
    unfold IndexShape.rowFor
    split
    · next hc => exact absurd hc (hs _ _)
    · rfl
  unfold unindexRecord
  cases i.shape.keyFor rec with
  | some k =>
    dsimp only [remove]
    split
    · exact .inr rfl
    · next hs => exact .inl ⟨hnone hs, rfl⟩
  | none =>
    dsimp only
    split
    · exact .inr rfl
    · next hs => exact .inl ⟨hnone hs, rfl⟩

/-! ## Following the records -/

namespace InStep

theorem update_rows {row : RecordId → Option Record} {rows : OrdMap RecordId Record}
    {o : Option Record} (h : ∀ x, rows.get x = row x) (x : RecordId) :
    (match o with
      | some r => rows.insert id r
      | none => rows.erase id).get x = Function.update row id o x := by
  cases o with
  | some r =>
    rw [OrdMap.get_insert, Function.update_apply, h]
  | none =>
    rw [OrdMap.get_erase, Function.update_apply, h]

/-- Told of a record, an index is in step with one record more. -/
theorem index (h : InStep K i records) (ho : Orderly K) (hnone : records.get id = none)
    (halike : i.shape.Alike rec rec') (hK : ∀ k ∈ i.shape.key rec, K k) :
    InStep K (i.indexRecord id rec) (records.insert id rec') := by
  have hwant : wants i.shape records id = none := by rw [wants, hnone, Option.bind_none]
  have hw := wants_insert i.shape records id rec'
  rw [← halike.1] at hw
  refine ⟨?_, fun x => ?_, ?_, fun x k hk => ?_⟩
  · rw [shape_indexRecord, kind_indexRecord, hw]
    cases hk : i.shape.key rec with
    | some k =>
      rw [entries_indexRecord_some hk]
      refine h.filed.insert hwant (@Orderly.inOrder _ ho i.kind (k :: i.entries.map (·.1)) ?_) ?_ ?_
      · intro x hx
        rcases List.mem_cons.mp hx with rfl | hx
        · exact hK x hk
        · obtain ⟨e, he, rfl⟩ := List.mem_map.mp hx
          exact h.stored e he
      · exact fun e he => List.mem_cons_of_mem _ (List.mem_map_of_mem he)
      · exact List.mem_cons_self
    | none =>
      rw [← hwant, Function.update_eq_self]
      rcases entries_indexRecord_none hk with he | ⟨v, he⟩
      · rw [he]
        exact h.filed
      · rw [he]
        exact h.filed.remove_absent hwant v
  · rw [shape_indexRecord, OrdMap.get_insert]
    rcases rows_indexRecord i id rec with ⟨hnone, hrows⟩ | hrows
    · rw [hrows, h.rows]
      split_ifs
      · rw [Option.bind_some, hnone, Option.bind_eq_none_iff]
        exact fun r _ => hnone r
      · rfl
    · rw [hrows, update_rows h.rows, Function.update_apply, halike.2]
      split_ifs
      · rfl
      · rfl
  · intro e he
    cases hk : i.shape.key rec with
    | some k =>
      rw [entries_indexRecord_some hk] at he
      rcases mem_insertKey he with he | rfl | ⟨d, hd, -, rfl⟩
      · exact h.stored e he
      · exact hK k hk
      · exact h.stored d hd
    | none =>
      rcases entries_indexRecord_none hk with heq | ⟨v, heq⟩
      · rw [heq] at he
        exact h.stored e he
      · rw [heq] at he
        rcases mem_removeKey he with he | ⟨d, hd, -, -, rfl⟩
        · exact h.stored e he
        · exact h.stored d hd
  · rw [shape_indexRecord, hw, Function.update_apply] at hk
    split_ifs at hk
    · exact hK k hk
    · exact h.wanted x k hk

/-- Told of a record that goes, an index is in step with the others. -/
theorem unindex (h : InStep K i records) (ho : Orderly K) (hsome : records.get id = some rec) :
    InStep K (i.unindexRecord id rec) (records.erase id) := by
  have hwant : wants i.shape records id = i.shape.key rec := by
    rw [wants, hsome, Option.bind_some]
  have hw := wants_erase i.shape records id
  have hmem : ∀ e ∈ (i.unindexRecord id rec).entries, K e.1 := by
    intro e he
    rw [entries_unindexRecord] at he
    split at he
    · rcases mem_removeKey he with he | ⟨d, hd, -, -, rfl⟩
      · exact h.stored e he
      · exact h.stored d hd
    · exact h.stored e he
  refine ⟨?_, fun x => ?_, hmem, fun x k hk => ?_⟩
  · rw [shape_unindexRecord, kind_unindexRecord, hw, entries_unindexRecord]
    cases ha : i.shape.key rec with
    | some k =>
      have hfor : i.shape.keyFor rec = some k := by
        unfold IndexShape.key at ha
        split_ifs at ha
        exact ha
      rw [hfor]
      refine h.filed.remove (hwant.trans ha)
        (@Orderly.inOrder _ ho i.kind (k :: i.entries.map (·.1)) ?_) ?_ List.mem_cons_self
      · intro x hx
        rcases List.mem_cons.mp hx with rfl | hx
        · exact h.wanted id x (hwant.trans ha)
        · obtain ⟨e, he, rfl⟩ := List.mem_map.mp hx
          exact h.stored e he
      · exact fun e he => List.mem_cons_of_mem _ (List.mem_map_of_mem he)
    | none =>
      have habsent := hwant.trans ha
      rw [← habsent, Function.update_eq_self]
      cases i.shape.keyFor rec with
      | some k => exact h.filed.remove_absent habsent k
      | none => exact h.filed
  · rw [shape_unindexRecord, OrdMap.get_erase]
    rcases rows_unindexRecord i id rec with ⟨hnone, hrows⟩ | hrows
    · rw [hrows, h.rows]
      split_ifs
      · rw [Option.bind_none, Option.bind_eq_none_iff]
        exact fun r _ => hnone r
      · rfl
    · rw [hrows, OrdMap.get_erase, h.rows]
      split_ifs
      · rfl
      · rfl
  · rw [shape_unindexRecord, hw, Function.update_apply] at hk
    split_ifs at hk
    · cases hk
    · exact h.wanted x k hk

end InStep

/-- Told of the records of a list, none of which it knew, an index is in step with what
they read back as. -/
theorem InStep.indexAll (ho : Orderly K) {shape : IndexShape} {es es' : List (RecordId × Record)}
    (hes : List.Forall₂ (fun a b => a.1 = b.1 ∧ shape.Alike a.2 b.2) es es')
    (hshape : i.shape = shape) (h : InStep K i records) (hnew : ∀ e ∈ es, records.get e.1 = none)
    (hnodup : (es.map (·.1)).Nodup) (hK : ∀ e ∈ es, ∀ k ∈ shape.key e.2, K k) :
    InStep K (es.foldl (fun i r => i.indexRecord r.1 r.2) i) (records.insertAll es') := by
  induction hes generalizing i records with
  | nil => exact h
  | @cons e e' es es' hee hrest ih =>
    rw [List.map_cons, List.nodup_cons] at hnodup
    rw [List.foldl_cons, OrdMap.insertAll_cons, ← hee.1]
    apply ih
    · rwa [shape_indexRecord]
    · subst hshape
      exact h.index ho (hnew e List.mem_cons_self) hee.2 (hK e List.mem_cons_self)
    · intro d hd
      have hne : d.1 ≠ e.1 := fun he => hnodup.1 (he ▸ List.mem_map_of_mem hd)
      rw [OrdMap.get_insert_ne _ _ hne]
      exact hnew d (List.mem_cons_of_mem _ hd)
    · exact hnodup.2
    · exact fun d hd => hK d (List.mem_cons_of_mem _ hd)

/-- An index built over the records is in step with them. -/
theorem build_inStep (ho : Orderly K) (shape : IndexShape) (kind : IndexKind)
    (hK : ∀ e ∈ records.entries, ∀ k ∈ shape.key e.2, K k) :
    InStep K (build shape kind records) records := by
  have hsame : List.Forall₂ (fun a b => a.1 = b.1 ∧ shape.Alike a.2 b.2) records.entries
      records.entries := List.forall₂_same.mpr fun e _ => ⟨rfl, .refl shape e.2⟩
  have h := InStep.indexAll ho hsame rfl (new_inStep K shape kind) (fun _ _ => rfl)
    records.keys_nodup hK
  rwa [OrdMap.insertAll_entries] at h

@[simp] theorem shape_build (shape : IndexShape) (kind : IndexKind)
    (records : OrdMap RecordId Record) : (build shape kind records).shape = shape := by
  unfold build
  have hfold : ∀ (es : List (RecordId × Record)) (i : Index),
      (es.foldl (fun i r => i.indexRecord r.1 r.2) i).shape = i.shape := by
    intro es
    induction es with
    | nil => exact fun _ => rfl
    | cons e es ih => exact fun i => (ih _).trans (shape_indexRecord i e.1 e.2)
  exact hfold _ _

@[simp] theorem kind_build (shape : IndexShape) (kind : IndexKind)
    (records : OrdMap RecordId Record) : (build shape kind records).kind = kind := by
  unfold build
  have hfold : ∀ (es : List (RecordId × Record)) (i : Index),
      (es.foldl (fun i r => i.indexRecord r.1 r.2) i).kind = i.kind := by
    intro es
    induction es with
    | nil => exact fun _ => rfl
    | cons e es ih => exact fun i => (ih _).trans (kind_indexRecord i e.1 e.2)
  exact hfold _ _

theorem InStep.get_of_wanted {k : Value} (h : k ∈ wants i.shape records id) :
    ∃ r, records.get id = some r ∧ i.shape.key r = some k := Option.bind_eq_some_iff.mp h

theorem InStep.holds (h : InStep K i records) : i.Holds records where
  complete := by
    intro r hr k hk
    refine h.filed.complete r.1 k ?_
    rw [wants, (OrdMap.mem_entries records r.1 r.2).mp hr]
    exact hk
  sound := by
    intro e he id hid
    obtain ⟨k, hk, hsame⟩ := h.filed.sound e he id hid
    obtain ⟨r, hr, hrk⟩ := get_of_wanted hk
    exact ⟨(id, r), (OrdMap.mem_entries records id r).mpr hr, rfl, k, hrk, hsame⟩
  ids := h.filed.ids
  keys := h.filed.keys
  rows := by
    intro r hr hcovers hkey
    rw [h.rows, (OrdMap.mem_entries records r.1 r.2).mp hr, Option.bind_some]
    unfold IndexShape.rowFor
    split
    · next f covers hs =>
      have hall : i.shape.key r.2 = i.shape.keyFor r.2 :=
        IndexShape.key_of_admits (by rw [hs]; rfl)
      rw [hall] at hkey
      obtain ⟨k, hk⟩ := Option.isSome_iff_exists.mp hkey
      rw [hk, Index.covers, hs]
      rfl
    · next hs =>
      exfalso
      apply hcovers
      unfold Index.covers IndexShape.covers
      split
      · next f covers hc => exact absurd hc (hs f covers)
      · rfl

/-- Every record with a key is listed under it. -/
theorem InStep.listed (h : InStep K i records) (ho : Orderly K) {r : RecordId × Record}
    (hr : r ∈ records.entries) {k : Value} (hk : i.shape.key r.2 = some k) : r.1 ∈ i.lookup k := by
  have hwant : ∀ d ∈ records.entries, ∀ m, i.shape.key d.2 = some m → K m := by
    intro d hd m hm
    refine h.wanted d.1 m ?_
    rw [wants, (OrdMap.mem_entries records d.1 d.2).mp hd]
    exact hm
  refine lookup_complete h.holds (ho.inOrder i.kind fun x hx => ?_) hr hk (Value.cmp_self k)
  rcases List.mem_append.mp hx with hx | hx
  · rcases List.mem_append.mp hx with hx | hx
    · obtain ⟨e, he, rfl⟩ := List.mem_map.mp hx
      exact h.stored e he
    · obtain ⟨d, hd, hm⟩ := List.mem_filterMap.mp hx
      exact hwant d hd x hm
  · rw [List.mem_singleton.mp hx]
    exact hwant r hr k hk

/-! ## Holding the same -/

/-- The same ids under the same keys, and the same projections. -/
structure Same (i j : Index) : Prop where
  shape : i.shape = j.shape
  kind : i.kind = j.kind
  there : ∀ e ∈ i.entries, ∃ f ∈ j.entries, sameKey i.kind e.1 f.1 = true ∧ e.2 = f.2
  back : ∀ f ∈ j.entries, ∃ e ∈ i.entries, sameKey i.kind f.1 e.1 = true ∧ f.2 = e.2
  rows : i.rows = j.rows

theorem InStep.entry (hi : InStep K i records) (hj : InStep K j records) (ho : Orderly K)
    (hshape : i.shape = j.shape) (hkind : i.kind = j.kind) {e : Value × List RecordId}
    (he : e ∈ i.entries) : ∃ f ∈ j.entries, sameKey i.kind e.1 f.1 = true ∧ e.2 = f.2 := by
  have hsub : ∀ {i j : Index}, InStep K i records → InStep K j records → i.shape = j.shape →
      i.kind = j.kind → ∀ {e f : Value × List RecordId}, e ∈ i.entries → f ∈ j.entries →
      e.1.cmp f.1 = .eq → ∀ id ∈ e.2, id ∈ f.2 := by
    intro i j hi hj hshape hkind e f he hf hef id hid
    obtain ⟨k, hk, hek⟩ := hi.filed.sound e he id hid
    have hKk := hi.wanted id k hk
    rw [hshape] at hk
    obtain ⟨f', hf', hfk, hid'⟩ := hj.filed.complete id k hk
    have hKe := hi.stored e he
    have hKf := hj.stored f hf
    have hKf' := hj.stored f' hf'
    have hkeys : KeysInOrder j.kind [e.1, k, f.1, f'.1] := by
      refine ho.inOrder j.kind ?_
      simp [hKe, hKk, hKf, hKf']
    have hff : f.1.cmp f'.1 = .eq := by
      have hkf := cmp_eq_symm (sameKey_cmp hfk)
      have hef' := hkeys.eq_trans (by simp) (by simp) (by simp) (sameKey_cmp hek) hkf
      exact hkeys.eq_trans (by simp) (by simp) (by simp) (cmp_eq_symm hef) hef'
    have heq : f = f' := by
      by_contra hne
      have : Std.Symm fun x y : Value × List RecordId =>
          Apart j.kind x.1 y.1 ∨ Apart j.kind y.1 x.1 := ⟨fun _ _ => Or.symm⟩
      have hpair : j.entries.Pairwise fun x y => Apart j.kind x.1 y.1 ∨ Apart j.kind y.1 x.1 :=
        hj.filed.keys.imp fun hxy => .inl hxy
      rcases hpair.forall hf hf' hne with hap | hap
      · exact hkeys.not_apart (by simp) (by simp) hff hap
      · exact hkeys.not_apart (by simp) (by simp) (cmp_eq_symm hff) hap
    rw [heq]
    exact hid'
  obtain ⟨id, hid⟩ := List.exists_mem_of_ne_nil _ (hi.filed.filled e he)
  obtain ⟨k, hk, hek⟩ := hi.filed.sound e he id hid
  have hKk := hi.wanted id k hk
  rw [hshape] at hk
  obtain ⟨f, hf, hfk, -⟩ := hj.filed.complete id k hk
  have hkeys : KeysInOrder i.kind [e.1, k, f.1] := by
    refine ho.inOrder i.kind ?_
    simp [hi.stored e he, hKk, hj.stored f hf]
  have hef : e.1.cmp f.1 = .eq :=
    hkeys.eq_trans (by simp) (by simp) (by simp) (sameKey_cmp hek) (cmp_eq_symm (sameKey_cmp hfk))
  refine ⟨f, hf, hkeys.sameKey_of_cmp (by simp) (by simp) hef, ?_⟩
  have hperm : ∀ id, id ∈ e.2 ↔ id ∈ f.2 := fun id =>
    ⟨hsub hi hj hshape hkind he hf hef id, hsub hj hi hshape.symm hkind.symm hf he
      (cmp_eq_symm hef) id⟩
  exact (hi.filed.ids e he).eq_of_mem_iff (hj.filed.ids f hf) hperm

/-- Two indexes of one definition that are in step with the same records hold the same. -/
theorem InStep.same (hi : InStep K i records) (hj : InStep K j records) (ho : Orderly K)
    (hshape : i.shape = j.shape) (hkind : i.kind = j.kind) : Same i j where
  shape := hshape
  kind := hkind
  there := fun _ he => hi.entry hj ho hshape hkind he
  back := fun _ hf => by
    rw [hkind]
    exact hj.entry hi ho hshape.symm hkind.symm hf
  rows := by
    ext id : 1
    rw [hi.rows, hj.rows, hshape]

end Index

end Adabt.Indexing
