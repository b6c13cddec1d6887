import Mathlib.Data.List.Nodup

/-! # Tables by key

Entries with distinct keys whose order is not observed. A table is read by key,
changed at one key, changed at every key and merged with another. -/

set_option autoImplicit false

namespace Adabt.Library

variable {κ β γ : Type} [DecidableEq κ]

/-- Change the value at a key, which begins as `fresh`. -/
def alterEntries (k : κ) (fresh : β) (f : β → β) : List (κ × β) → List (κ × β)
  | [] => [(k, f fresh)]
  | e :: es => if e.1 = k then (k, f e.2) :: es else e :: alterEntries k fresh f es

theorem mem_keys_alterEntries {k a : κ} {fresh : β} {f : β → β} {es : List (κ × β)}
    (h : a ∈ (alterEntries k fresh f es).map Prod.fst) : a = k ∨ a ∈ es.map Prod.fst := by
  induction es with
  | nil => exact .inl (List.mem_singleton.mp h)
  | cons e es ih =>
    rw [alterEntries] at h
    split_ifs at h with he
    · rcases List.mem_cons.mp h with rfl | h
      · exact .inl rfl
      · exact .inr (List.mem_cons_of_mem _ h)
    · rcases List.mem_cons.mp h with rfl | h
      · exact .inr List.mem_cons_self
      · exact (ih h).imp_right (List.mem_cons_of_mem _)

theorem nodup_alterEntries (k : κ) (fresh : β) (f : β → β) {es : List (κ × β)}
    (h : (es.map Prod.fst).Nodup) : ((alterEntries k fresh f es).map Prod.fst).Nodup := by
  induction es with
  | nil => exact List.nodup_singleton k
  | cons e es ih =>
    rw [List.map_cons, List.nodup_cons] at h
    rw [alterEntries]
    split_ifs with he
    · rw [List.map_cons, List.nodup_cons]
      exact ⟨he ▸ h.1, h.2⟩
    · rw [List.map_cons, List.nodup_cons]
      refine ⟨fun hmem => ?_, ih h.2⟩
      rcases mem_keys_alterEntries hmem with heq | hmem
      · exact he heq
      · exact h.1 hmem

structure Table (κ β : Type) where
  entries : List (κ × β)
  nodup : (entries.map Prod.fst).Nodup

namespace Table

def empty : Table κ β := ⟨[], List.nodup_nil⟩

instance table_emptyCollection : EmptyCollection (Table κ β) := ⟨empty⟩

def get (t : Table κ β) (k : κ) : Option β := (t.entries.find? fun e => e.1 = k).map Prod.snd

def alter (t : Table κ β) (k : κ) (fresh : β) (f : β → β) : Table κ β :=
  ⟨alterEntries k fresh f t.entries, nodup_alterEntries k fresh f t.nodup⟩

def mapVal (t : Table κ β) (f : β → γ) : Table κ γ :=
  ⟨t.entries.map fun e => (e.1, f e.2), by rw [List.map_map]; exact t.nodup⟩

def insert (t : Table κ β) (k : κ) (v : β) : Table κ β := t.alter k v fun _ => v

def retain (t : Table κ β) (p : κ → β → Bool) : Table κ β :=
  ⟨t.entries.filter fun e => p e.1 e.2, t.nodup.sublist (List.filter_sublist.map Prod.fst)⟩

def erase (t : Table κ β) (k : κ) : Table κ β := t.retain fun k' _ => k' ≠ k

def keys (t : Table κ β) : List κ := t.entries.map Prod.fst

def size (t : Table κ β) : ℕ := t.entries.length

/-- Every value of one table added to those of another. -/
def merge (t : Table κ β) (u : Table κ γ) (fresh : β) (f : β → γ → β) : Table κ β :=
  u.entries.foldl (fun t e => t.alter e.1 fresh (f · e.2)) t

@[simp] theorem get_empty (k : κ) : (∅ : Table κ β).get k = none := rfl

theorem get_alter (t : Table κ β) (k k' : κ) (fresh : β) (f : β → β) :
    (t.alter k fresh f).get k' = if k' = k then some (f ((t.get k).getD fresh)) else t.get k' := by
  change ((alterEntries k fresh f t.entries).find? fun e => e.1 = k').map Prod.snd =
    if k' = k then some (f (((t.entries.find? fun e => e.1 = k).map Prod.snd).getD fresh))
    else (t.entries.find? fun e => e.1 = k').map Prod.snd
  induction t.entries with
  | nil =>
    by_cases hk : k' = k
    · simp [alterEntries, hk]
    · simp [alterEntries, hk, Ne.symm hk]
  | cons e es ih =>
    rw [alterEntries]
    by_cases he : e.1 = k
    · by_cases hk : k' = k
      · simp [he, hk]
      · simp [he, hk, Ne.symm hk]
    · by_cases hek : e.1 = k'
      · have hk : k' ≠ k := hek ▸ he
        simp [hek, hk]
      · simpa [he, hek] using ih

theorem get_insert (t : Table κ β) (k k' : κ) (v : β) :
    (t.insert k v).get k' = if k' = k then some v else t.get k' :=
  get_alter t k k' v fun _ => v

theorem get_eq_some_iff (t : Table κ β) (k : κ) (v : β) :
    t.get k = some v ↔ (k, v) ∈ t.entries := by
  rw [get, Option.map_eq_some_iff]
  constructor
  · rintro ⟨e, he, rfl⟩
    have hk : e.1 = k := by simpa using List.find?_some he
    exact hk ▸ List.mem_of_find?_eq_some he
  · intro hmem
    cases hf : t.entries.find? fun e => e.1 = k with
    | none => exact absurd (decide_eq_true rfl) (List.find?_eq_none.mp hf (k, v) hmem)
    | some e =>
      have hk : e.1 = k := by simpa using List.find?_some hf
      have he := List.inj_on_of_nodup_map t.nodup (List.mem_of_find?_eq_some hf) hmem hk
      exact ⟨e, rfl, congrArg Prod.snd he⟩

theorem mem_keys (t : Table κ β) (k : κ) : k ∈ t.keys ↔ (t.get k).isSome := by
  simp only [keys, List.mem_map, Prod.exists, exists_and_right, exists_eq_right,
    Option.isSome_iff_exists, get_eq_some_iff]

theorem get_retain (t : Table κ β) (p : κ → β → Bool) (k : κ) :
    (t.retain p).get k = (t.get k).filter (p k) := by
  refine Option.ext fun v => ?_
  rw [Option.filter_eq_some_iff, get_eq_some_iff, get_eq_some_iff]
  exact List.mem_filter

theorem get_erase (t : Table κ β) (k k' : κ) :
    (t.erase k).get k' = if k' = k then none else t.get k' := by
  rw [erase, get_retain]
  split_ifs with h
  · cases t.get k' <;> simp [h]
  · cases t.get k' <;> simp [h]

theorem get_mapVal (t : Table κ β) (f : β → γ) (k : κ) :
    (t.mapVal f).get k = (t.get k).map f := by
  rw [get, mapVal, List.find?_map, get, Option.map_map, Option.map_map]
  rfl

theorem get_foldl_alter (fresh : β) (f : β → γ → β) (k : κ) {es : List (κ × γ)}
    (h : (es.map Prod.fst).Nodup) (t : Table κ β) :
    (es.foldl (fun t e => t.alter e.1 fresh (f · e.2)) t).get k =
      match (es.find? fun e => e.1 = k).map Prod.snd with
      | none => t.get k
      | some v => some (f ((t.get k).getD fresh) v) := by
  induction es generalizing t with
  | nil => rfl
  | cons e es ih =>
    rw [List.map_cons, List.nodup_cons] at h
    rw [List.foldl_cons, ih h.2]
    by_cases he : e.1 = k
    · have hnone : es.find? (fun e => e.1 = k) = none := by
        rw [List.find?_eq_none]
        intro a ha hak
        exact h.1 (he ▸ of_decide_eq_true hak ▸ List.mem_map_of_mem ha)
      simp [hnone, he, get_alter]
    · simp [he, Ne.symm he, get_alter]

theorem get_merge (t : Table κ β) (u : Table κ γ) (fresh : β) (f : β → γ → β) (k : κ) :
    (t.merge u fresh f).get k = match u.get k with
      | none => t.get k
      | some v => some (f ((t.get k).getD fresh) v) :=
  get_foldl_alter fresh f k u.nodup t

end Table

end Adabt.Library
