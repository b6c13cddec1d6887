import Mathlib.Data.List.Basic
import Mathlib.Data.List.Forall2
import Mathlib.Order.Lattice
import Mathlib.Tactic.SplitIfs

/-! # Ordered maps

A finite map kept as the list of its entries in strictly ascending key order.
The order is a field of the structure, so two maps with the same lookups are
the same map and iteration order is a function of the contents. -/

set_option autoImplicit false

namespace Adabt.Library

variable {κ β γ : Type} [LinearOrder κ]

structure OrdMap (κ β : Type) [LinearOrder κ] where
  entries : List (κ × β)
  sorted : entries.Pairwise (fun a b => a.1 < b.1)

namespace OrdMap

def find (k : κ) : List (κ × β) → Option β
  | [] => none
  | e :: rest => if k = e.1 then some e.2 else find k rest

def insertEntry (k : κ) (v : β) : List (κ × β) → List (κ × β)
  | [] => [(k, v)]
  | e :: rest =>
    if k < e.1 then (k, v) :: e :: rest
    else if k = e.1 then (k, v) :: rest
    else e :: insertEntry k v rest

theorem mem_insertEntry {k : κ} {v : β} {es : List (κ × β)} {a : κ × β}
    (h : a ∈ insertEntry k v es) : a = (k, v) ∨ a ∈ es := by
  induction es with
  | nil => simpa [insertEntry] using h
  | cons e rest ih =>
    rw [insertEntry] at h
    split_ifs at h with h1 h2
    · simpa using h
    · rcases List.mem_cons.mp h with h | h
      · exact .inl h
      · exact .inr (List.mem_cons_of_mem _ h)
    · rcases List.mem_cons.mp h with h | h
      · exact .inr (h ▸ List.mem_cons_self)
      · exact (ih h).imp_right (List.mem_cons_of_mem _)

theorem insertEntry_sorted (k : κ) (v : β) {es : List (κ × β)}
    (hs : es.Pairwise (fun a b => a.1 < b.1)) :
    (insertEntry k v es).Pairwise (fun a b => a.1 < b.1) := by
  induction es with
  | nil => simp [insertEntry]
  | cons e rest ih =>
    obtain ⟨he, hr⟩ := List.pairwise_cons.mp hs
    rw [insertEntry]
    split_ifs with h1 h2
    · refine List.pairwise_cons.mpr ⟨fun a ha => ?_, hs⟩
      rcases List.mem_cons.mp ha with rfl | ha
      · exact h1
      · exact h1.trans (he a ha)
    · exact List.pairwise_cons.mpr ⟨fun a ha => h2 ▸ he a ha, hr⟩
    · refine List.pairwise_cons.mpr ⟨fun a ha => ?_, ih hr⟩
      rcases mem_insertEntry ha with rfl | ha
      · exact lt_of_le_of_ne (not_lt.mp h1) (Ne.symm h2)
      · exact he a ha

@[simp] theorem find_nil (k : κ) : find k ([] : List (κ × β)) = none := rfl

theorem find_insertEntry (k k' : κ) (v : β) (es : List (κ × β)) :
    find k' (insertEntry k v es) = if k' = k then some v else find k' es := by
  induction es with
  | nil => simp [insertEntry, find]
  | cons e rest ih =>
    rw [insertEntry]
    split_ifs with h1 h2 h3 h3 h3
    all_goals simp_all [find]

theorem find_none_of_lt {k : κ} {es : List (κ × β)} (h : ∀ a ∈ es, k < a.1) :
    find k es = none := by
  induction es with
  | nil => rfl
  | cons e rest ih =>
    rw [find, if_neg (h e (by simp)).ne]
    exact ih fun a ha => h a (List.mem_cons_of_mem _ ha)

theorem find_eq_some_iff {es : List (κ × β)} (hs : es.Pairwise (fun a b => a.1 < b.1))
    (k : κ) (v : β) : find k es = some v ↔ (k, v) ∈ es := by
  induction es with
  | nil => simp
  | cons e rest ih =>
    obtain ⟨he, hr⟩ := List.pairwise_cons.mp hs
    rw [find, List.mem_cons]
    split_ifs with h
    · constructor
      · intro hv
        exact .inl (Prod.ext h (Option.some.inj hv).symm)
      · rintro (hv | hv)
        · rw [← hv]
        · exact absurd h.symm (he _ hv).ne
    · rw [ih hr]
      exact ⟨.inr, fun hv => hv.resolve_left fun hk => h (congrArg Prod.fst hk)⟩

/-- Two sorted entry lists with the same lookups are equal. -/
theorem eq_of_find_eq {es fs : List (κ × β)} (hs : es.Pairwise (fun a b => a.1 < b.1))
    (ht : fs.Pairwise (fun a b => a.1 < b.1)) (h : ∀ k, find k es = find k fs) :
    es = fs := by
  have hp : es.Perm fs := by
    have hes : es.Nodup := hs.imp fun hab he => hab.ne (congrArg Prod.fst he)
    have hfs : fs.Nodup := ht.imp fun hab he => hab.ne (congrArg Prod.fst he)
    refine (List.perm_ext_iff_of_nodup hes hfs).mpr fun a => ?_
    rw [← find_eq_some_iff hs, ← find_eq_some_iff ht, h]
  exact hp.eq_of_pairwise (fun a b _ _ hab hba => absurd hba hab.asymm) hs ht

def empty : OrdMap κ β := ⟨[], List.Pairwise.nil⟩

instance : EmptyCollection (OrdMap κ β) := ⟨empty⟩

instance : Inhabited (OrdMap κ β) := ⟨empty⟩

def get (m : OrdMap κ β) (k : κ) : Option β := find k m.entries

def insert (m : OrdMap κ β) (k : κ) (v : β) : OrdMap κ β :=
  ⟨insertEntry k v m.entries, insertEntry_sorted k v m.sorted⟩

def filter (m : OrdMap κ β) (p : κ → β → Bool) : OrdMap κ β :=
  ⟨m.entries.filter (fun e => p e.1 e.2), m.sorted.filter _⟩

def filterMapVal (f : κ → β → Option γ) (m : OrdMap κ β) : OrdMap κ γ :=
  ⟨m.entries.filterMap fun e => (f e.1 e.2).map fun c => (e.1, c), by
    refine List.Pairwise.filterMap _ (fun a b hab x hx y hy => ?_) m.sorted
    obtain ⟨_, -, rfl⟩ := Option.map_eq_some_iff.mp hx
    obtain ⟨_, -, rfl⟩ := Option.map_eq_some_iff.mp hy
    exact hab⟩

def erase (m : OrdMap κ β) (k : κ) : OrdMap κ β := m.filter fun k' _ => k' ≠ k

def mapVal (f : κ → β → γ) (m : OrdMap κ β) : OrdMap κ γ :=
  ⟨m.entries.map fun e => (e.1, f e.1 e.2), by
    simpa [List.pairwise_map] using m.sorted⟩

def keys (m : OrdMap κ β) : List κ := m.entries.map Prod.fst

def values (m : OrdMap κ β) : List β := m.entries.map Prod.snd

def size (m : OrdMap κ β) : Nat := m.entries.length

def contains (m : OrdMap κ β) (k : κ) : Bool := (m.get k).isSome

@[ext] theorem ext_get {m n : OrdMap κ β} (h : ∀ k, m.get k = n.get k) : m = n := by
  obtain ⟨es, hs⟩ := m
  obtain ⟨fs, ht⟩ := n
  congr
  exact eq_of_find_eq hs ht h

instance [DecidableEq β] : DecidableEq (OrdMap κ β) := fun m n =>
  decidable_of_iff (m.entries = n.entries)
    ⟨fun h => by cases m; cases n; cases h; rfl, fun h => h ▸ rfl⟩

@[simp] theorem get_empty (k : κ) : (∅ : OrdMap κ β).get k = none := rfl

@[simp] theorem entries_empty : (∅ : OrdMap κ β).entries = [] := rfl

theorem get_insert (m : OrdMap κ β) (k k' : κ) (v : β) :
    (m.insert k v).get k' = if k' = k then some v else m.get k' :=
  find_insertEntry k k' v m.entries

@[simp] theorem get_insert_self (m : OrdMap κ β) (k : κ) (v : β) :
    (m.insert k v).get k = some v := by
  rw [get_insert, if_pos rfl]

theorem get_insert_ne (m : OrdMap κ β) {k k' : κ} (v : β) (h : k' ≠ k) :
    (m.insert k v).get k' = m.get k' := by
  rw [get_insert, if_neg h]

theorem mem_entries (m : OrdMap κ β) (k : κ) (v : β) :
    (k, v) ∈ m.entries ↔ m.get k = some v :=
  (find_eq_some_iff m.sorted k v).symm

theorem get_filter (m : OrdMap κ β) (p : κ → β → Bool) (k : κ) :
    (m.filter p).get k = (m.get k).filter (p k) := by
  refine Option.ext fun v => ?_
  rw [Option.filter_eq_some_iff, ← mem_entries, ← mem_entries]
  simp [filter]

theorem get_erase (m : OrdMap κ β) (k k' : κ) :
    (m.erase k).get k' = if k' = k then none else m.get k' := by
  rw [erase, get_filter]
  split_ifs with h
  · cases hm : m.get k' <;> simp [h]
  · cases hm : m.get k' <;> simp [h]

@[simp] theorem get_erase_self (m : OrdMap κ β) (k : κ) : (m.erase k).get k = none := by
  rw [get_erase, if_pos rfl]

theorem insert_erase (m : OrdMap κ β) (k : κ) (v : β) : (m.erase k).insert k v = m.insert k v := by
  ext k' : 1
  rw [get_insert, get_insert]
  split_ifs with h
  · rfl
  · rw [get_erase, if_neg h]

theorem erase_of_none (m : OrdMap κ β) {k : κ} (h : m.get k = none) : m.erase k = m := by
  ext k' : 1
  rw [get_erase]
  split_ifs with hk
  · rw [hk, h]
  · rfl

@[simp] theorem get_mapVal (f : κ → β → γ) (m : OrdMap κ β) (k : κ) :
    (m.mapVal f).get k = (m.get k).map (f k) := by
  obtain ⟨es, hs⟩ := m
  induction es with
  | nil => rfl
  | cons e rest ih =>
    have := ih (List.pairwise_cons.mp hs).2
    simp only [get, mapVal, List.map_cons, find] at this ⊢
    split_ifs with h
    · rw [h, Option.map_some]
    · exact this

theorem get_filterMapVal (f : κ → β → Option γ) (m : OrdMap κ β) (k : κ) :
    (m.filterMapVal f).get k = (m.get k).bind (f k) := by
  refine Option.ext fun v => ?_
  rw [← mem_entries, Option.bind_eq_some_iff]
  simp only [filterMapVal, List.mem_filterMap, Option.map_eq_some_iff, Prod.mk.injEq,
    ← mem_entries]
  constructor
  · rintro ⟨e, he, c, hc, rfl, rfl⟩
    exact ⟨e.2, he, hc⟩
  · rintro ⟨b, hb, hv⟩
    exact ⟨(k, b), hb, v, hv, rfl, rfl⟩

theorem mem_keys (m : OrdMap κ β) (k : κ) : k ∈ m.keys ↔ (m.get k).isSome := by
  simp only [keys, List.mem_map, Prod.exists, exists_and_right, exists_eq_right,
    mem_entries, Option.isSome_iff_exists]

theorem keys_nodup (m : OrdMap κ β) : m.keys.Nodup :=
  List.pairwise_map.mpr (m.sorted.imp fun h => h.ne)

@[simp] theorem keys_mapVal (f : κ → β → γ) (m : OrdMap κ β) : (m.mapVal f).keys = m.keys := by
  simp [keys, mapVal]

theorem mem_values (m : OrdMap κ β) (v : β) : v ∈ m.values ↔ ∃ k, m.get k = some v := by
  simp only [values, List.mem_map, Prod.exists, exists_eq_right, mem_entries]

theorem nodup_entries (m : OrdMap κ β) : m.entries.Nodup :=
  m.sorted.imp fun hab he => hab.ne (congrArg Prod.fst he)

/-- A new key adds its entry to those there were. -/
theorem insert_perm (m : OrdMap κ β) {k : κ} {v : β} (h : m.get k = none) :
    (m.insert k v).entries.Perm ((k, v) :: m.entries) := by
  have hnot : (k, v) ∉ m.entries := by rw [mem_entries, h]; nofun
  refine (List.perm_ext_iff_of_nodup (nodup_entries _)
    (List.nodup_cons.mpr ⟨hnot, m.nodup_entries⟩)).mpr fun e => ?_
  obtain ⟨j, w⟩ := e
  rw [mem_entries, get_insert, List.mem_cons, mem_entries, Prod.mk.injEq]
  by_cases hj : j = k
  · rw [if_pos hj, hj, h]
    simp [eq_comm]
  · simp [hj]

/-- An entry goes with its key, and the others stay. -/
theorem erase_perm (m : OrdMap κ β) {k : κ} {v : β} (h : m.get k = some v) :
    m.entries.Perm ((k, v) :: (m.erase k).entries) := by
  have hback : (m.erase k).insert k v = m := by
    ext j : 1
    rw [get_insert, get_erase]
    split_ifs with hj
    · rw [hj, h]
    · rfl
  have hp := (m.erase k).insert_perm (v := v) (get_erase_self m k)
  rwa [hback] at hp

/-- Inserting a list of entries front to back keeps the last value for each key. -/
def insertAll (m : OrdMap κ β) (es : List (κ × β)) : OrdMap κ β :=
  es.foldl (fun m e => m.insert e.1 e.2) m

@[simp] theorem insertAll_nil (m : OrdMap κ β) : m.insertAll [] = m := rfl

@[simp] theorem insertAll_cons (m : OrdMap κ β) (e : κ × β) (es : List (κ × β)) :
    m.insertAll (e :: es) = (m.insert e.1 e.2).insertAll es := rfl

theorem get_insertAll_of_not_mem (m : OrdMap κ β) (es : List (κ × β)) (k : κ)
    (h : k ∉ es.map Prod.fst) : (m.insertAll es).get k = m.get k := by
  induction es generalizing m with
  | nil => rfl
  | cons e rest ih =>
    simp only [List.map_cons, List.mem_cons, not_or] at h
    rw [insertAll_cons, ih _ h.2, get_insert_ne _ _ h.1]

theorem get_insertAll_of_mem (m : OrdMap κ β) {es : List (κ × β)}
    (hn : (es.map Prod.fst).Nodup) {k : κ} {v : β} (h : (k, v) ∈ es) :
    (m.insertAll es).get k = some v := by
  induction es generalizing m with
  | nil => cases h
  | cons e rest ih =>
    obtain ⟨hnot, hnodup⟩ := List.nodup_cons.mp hn
    rcases List.mem_cons.mp h with rfl | h
    · rw [insertAll_cons, get_insertAll_of_not_mem _ _ _ hnot, get_insert_self]
    · exact ih _ hnodup h

theorem get_insertAll (m : OrdMap κ β) (es : List (κ × β))
    (hs : es.Pairwise (fun a b => a.1 < b.1)) (k : κ) :
    (m.insertAll es).get k = (find k es).or (m.get k) := by
  induction es generalizing m with
  | nil => rfl
  | cons e rest ih =>
    obtain ⟨he, hr⟩ := List.pairwise_cons.mp hs
    rw [insertAll_cons, ih _ hr, get_insert, find]
    split_ifs with h
    · rw [h, find_none_of_lt he, Option.none_or, Option.some_or]
    · rfl

/-- Building a map from the entries of a map gives the map back. -/
theorem insertAll_entries (m : OrdMap κ β) : (∅ : OrdMap κ β).insertAll m.entries = m := by
  ext k : 1
  rw [get_insertAll _ _ m.sorted, get_empty, Option.or_none, get]

theorem insertAll_append (m : OrdMap κ β) (es fs : List (κ × β)) :
    m.insertAll (es ++ fs) = (m.insertAll es).insertAll fs := List.foldl_append

theorem insertAll_perm (m : OrdMap κ β) {es : List (κ × β)}
    (h : ((m.entries ++ es).map Prod.fst).Nodup) : (m.insertAll es).entries.Perm (m.entries ++ es) := by
  induction es generalizing m with
  | nil => rw [List.append_nil, insertAll_nil]
  | cons e es ih =>
    have hnew : m.get e.1 = none := by
      rw [List.map_append, List.map_cons] at h
      have hnot : e.1 ∉ m.keys := fun hmem =>
        (List.nodup_append.mp h).2.2 e.1 hmem e.1 List.mem_cons_self rfl
      rwa [mem_keys, Option.isSome_iff_ne_none, not_not] at hnot
    have hmoved : ((m.insert e.1 e.2).entries ++ es).Perm (m.entries ++ e :: es) :=
      ((m.insert_perm hnew).append_right es).trans List.perm_middle.symm
    rw [insertAll_cons]
    exact (ih _ (((hmoved.map Prod.fst).nodup_iff).mpr h)).trans hmoved

/-- Every entry of both is in the map exactly where no key is twice. -/
theorem insertAll_perm_iff (m : OrdMap κ β) (es : List (κ × β)) :
    (m.insertAll es).entries.Perm (m.entries ++ es) ↔ ((m.entries ++ es).map Prod.fst).Nodup :=
  ⟨fun h => ((h.map Prod.fst).nodup_iff).mp (m.insertAll es).keys_nodup, m.insertAll_perm⟩

/-! ## Maps side by side -/

theorem rel_find {R : β → γ → Prop} {es : List (κ × β)} {fs : List (κ × γ)}
    (h : List.Forall₂ (fun p q => p.1 = q.1 ∧ R p.2 q.2) es fs) (k : κ) :
    Option.Rel R (find k es) (find k fs) := by
  induction h with
  | nil => exact .none
  | cons hpq _ ih =>
    rw [find, find, ← hpq.1]
    split_ifs
    · exact .some hpq.2
    · exact ih

theorem forall₂_of_rel_find {R : β → γ → Prop} {es : List (κ × β)} {fs : List (κ × γ)}
    (hs : es.Pairwise (fun a b => a.1 < b.1)) (ht : fs.Pairwise (fun a b => a.1 < b.1))
    (h : ∀ k, Option.Rel R (find k es) (find k fs)) :
    List.Forall₂ (fun p q => p.1 = q.1 ∧ R p.2 q.2) es fs := by
  induction es generalizing fs with
  | nil =>
    cases fs with
    | nil => exact .nil
    | cons f fs =>
      have hf := h f.1
      rw [find, find, if_pos rfl] at hf
      cases hf
  | cons e es ih =>
    obtain ⟨he, hes⟩ := List.pairwise_cons.mp hs
    cases fs with
    | nil =>
      have hf := h e.1
      rw [find_nil, find, if_pos rfl] at hf
      cases hf
    | cons f fs =>
      obtain ⟨hf, hfs⟩ := List.pairwise_cons.mp ht
      have hkey : e.1 = f.1 := by
        rcases lt_trichotomy e.1 f.1 with hlt | heq | hgt
        · have hnone : find e.1 (f :: fs) = none := by
            apply find_none_of_lt
            intro a ha
            rcases List.mem_cons.mp ha with rfl | ha
            · exact hlt
            · exact hlt.trans (hf a ha)
          have hrel := h e.1
          rw [hnone, find, if_pos rfl] at hrel
          cases hrel
        · exact heq
        · have hnone : find f.1 (e :: es) = none := by
            apply find_none_of_lt
            intro a ha
            rcases List.mem_cons.mp ha with rfl | ha
            · exact hgt
            · exact hgt.trans (he a ha)
          have hrel := h f.1
          rw [hnone, find, if_pos rfl] at hrel
          cases hrel
      have hhead := h e.1
      rw [find, find, if_pos rfl, if_pos hkey] at hhead
      have hrest : ∀ k, Option.Rel R (find k es) (find k fs) := by
        intro k
        by_cases hk : k = e.1
        · subst hk
          rw [find_none_of_lt he, find_none_of_lt fun a ha => hkey ▸ hf a ha]
          exact .none
        · have hrel := h k
          rwa [find, find, if_neg hk, if_neg fun hkf => hk (hkf.trans hkey.symm)] at hrel
      refine .cons ⟨hkey, ?_⟩ (ih hes hfs hrest)
      cases hhead
      assumption

/-- Entries that stand side by side are lookups that do. -/
theorem forall₂_entries {R : β → γ → Prop} (m : OrdMap κ β) (n : OrdMap κ γ) :
    List.Forall₂ (fun p q => p.1 = q.1 ∧ R p.2 q.2) m.entries n.entries ↔
      ∀ k, Option.Rel R (m.get k) (n.get k) :=
  ⟨rel_find, forall₂_of_rel_find m.sorted n.sorted⟩

end OrdMap

end Adabt.Library
