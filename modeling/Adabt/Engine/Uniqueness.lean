import Adabt.Engine.Matching

/-! # Unique constraints over indexes in step

With the index of a constrained field in step, a value is in the way of a write
exactly when another record holds an equal one. -/

set_option autoImplicit false

namespace Adabt.Engine
open Adabt.Core Adabt.Indexing Adabt.Ir Adabt.Library Adabt.Storage Adabt.Storage.Heap

/-- The record holds a value equal to this one. -/
def HoldsValue (field : String) (v : Value) (rec : Record) : Prop :=
  ∃ k ∈ filedValue rec field, k.cmp v = .eq

/-- An index that answers to the plain name of a field is filed by that field. -/
theorem key_of_plain {shape : IndexShape} (hl : Legible shape) (hp : Plain shape.field)
    (rec : Record) : shape.key rec = filedValue rec shape.field := by
  obtain ⟨key, hkey, heq⟩ := hl
  have hprobe : expectedKey shape.field = some (probe [shape.field]) := by
    unfold expectedKey
    rw [if_neg hp.2.1, splitOnce_of_not_mem hp.2.2]
    simp only [if_neg hp.1]
  rw [← heq, ← probe_single]
  exact congrFun (Option.some.inj (hkey.symm.trans hprobe)) rec

variable {δ : Type} {E : Env} {U : Upkeep δ} {K : Value → Prop}

/-- The ids listed under a value are those of the records that hold it. -/
theorem mem_lookup_iff {i : Index} {records : OrdMap RecordId Record} (h : i.InStep K records)
    (ho : Orderly K) (hl : Legible i.shape) (hp : Plain i.field) {v : Value} (hv : K v)
    {id : RecordId} :
    id ∈ i.lookup v ↔ ∃ r, records.get id = some r ∧ HoldsValue i.field v r := by
  have hkey := key_of_plain hl hp
  constructor
  · intro hid
    unfold Index.lookup at hid
    cases hf : i.entries.find? fun e => sameKey i.kind e.1 v with
    | none =>
      rw [hf] at hid
      cases hid
    | some e =>
      rw [hf] at hid
      have he := List.mem_of_find?_eq_some hf
      have hev : sameKey i.kind e.1 v = true :=
        List.find?_some (p := fun e : Value × List RecordId => sameKey i.kind e.1 v) hf
      obtain ⟨k, hk, hek⟩ := h.filed.sound e he id hid
      have hKk := h.wanted id k hk
      obtain ⟨r, hr, hrk⟩ := Index.InStep.get_of_wanted hk
      refine ⟨r, hr, k, (hkey r).symm.trans hrk, ?_⟩
      have hkeys : KeysInOrder i.kind [k, e.1, v] := by
        refine ho.inOrder i.kind ?_
        simp [hKk, h.stored e he, hv]
      exact hkeys.eq_trans (by simp) (by simp) (by simp) (cmp_eq_symm (sameKey_cmp hek))
        (sameKey_cmp hev)
  · rintro ⟨r, hr, k, hk, hkv⟩
    have hmem : (id, r) ∈ records.entries := (OrdMap.mem_entries records id r).mpr hr
    refine Index.lookup_complete h.holds (ho.inOrder i.kind fun x hx => ?_) hmem
      ((hkey r).trans hk) hkv
    rcases List.mem_append.mp hx with hx | hx
    · rcases List.mem_append.mp hx with hx | hx
      · obtain ⟨e, he, rfl⟩ := List.mem_map.mp hx
        exact h.stored e he
      · obtain ⟨d, hd, hm⟩ := List.mem_filterMap.mp hx
        refine h.wanted d.1 x ?_
        rw [Index.wants, (OrdMap.mem_entries records d.1 d.2).mp hd]
        exact hm
    · rw [List.mem_singleton.mp hx]
      exact hv

namespace Database

/-- Whether a constraint is backed by an index at all. -/
def backed (db : Database δ) (c field : String) : Bool := (db.shapes c).any (·.field = field)

theorem uniqueIndex_isSome (db : Database δ) (c field : String) :
    (db.uniqueIndex c field).isSome = db.backed c field := by
  unfold uniqueIndex backed shapes
  rw [List.any_map, Bool.eq_iff_iff, List.find?_isSome, List.any_eq_true]
  rfl

/-- A write is in conflict over a backed field exactly when another record holds its value. -/
theorem conflicts_iff {db : Database δ} (h : InStep E K db) (ho : Orderly K) {c : String}
    {records : OrdMap RecordId Record} (hr : Reads E db.store c records) {field : String}
    (hp : Plain field) {exclude : Option RecordId} {rec : Record} {v : Value}
    (hv : filedValue rec field = some v) (hK : K v) :
    db.conflicts c exclude rec field = true ↔ db.backed c field = true ∧
      ∃ id r, records.get id = some r ∧ some id ≠ exclude ∧ HoldsValue field v r := by
  unfold conflicts holders
  rw [hv, ← uniqueIndex_isSome]
  dsimp only
  cases hi : db.uniqueIndex c field with
  | none => simp
  | some i =>
    have him : i ∈ db.indexList c := List.mem_of_find?_eq_some hi
    have hfield : i.field = field := by simpa using List.find?_some hi
    have hc : (db.store.formatOf c).isSome := by
      obtain ⟨f, hf, -⟩ := hr
      rw [hf]
      rfl
    obtain ⟨records', hr', hin⟩ := h.reads c hc
    obtain rfl := hr.unique hr'
    have hlegible := h.legible c i.shape (List.mem_map_of_mem him)
    have hlookup := fun id => @mem_lookup_iff _ _ _ (hin i him) ho hlegible (hfield ▸ hp) _ hK id
    simp only [Option.map_some, Option.getD_some, List.any_eq_true, decide_eq_true_eq,
      Option.isSome_some, true_and, hlookup, hfield]
    constructor
    · rintro ⟨id, ⟨r, hr, hholds⟩, hne⟩
      exact ⟨id, r, hr, hne, hholds⟩
    · rintro ⟨id, r, hr, hne, hholds⟩
      exact ⟨id, ⟨r, hr, hholds⟩, hne⟩

/-- A record passes the constraints exactly when no backed one is in the way. -/
theorem checkUnique_eq_ok {db : Database δ} {c : String} {exclude : Option RecordId} {rec : Record}
    {u : Unit} : db.checkUniqueConstraints c exclude rec = .ok u ↔
      ∀ field ∈ db.uniqueOn c, db.conflicts c exclude rec field = false := by
  unfold checkUniqueConstraints
  rw [checkAll_eq_ok]
  simp only [ensure_eq_ok]

end Database

end Adabt.Engine
