import Mathlib.Data.List.Nodup
import Mathlib.Data.List.Perm.Basic
import Mathlib.Data.Nat.Notation

/-! # Eviction policies

A policy names pages. Touching a page makes it a name, and a victim is one of the
names, taken out of them; a policy without names offers no victim. The pool needs
no more of a policy than that. -/

set_option autoImplicit false

namespace Adabt.Storage

structure EvictionPolicy (σ : Type) where
  touch : ℕ → σ → σ
  forget : ℕ → σ → σ
  victim : σ → Option (ℕ × σ)
  names : σ → List ℕ
  mem_touch : ∀ id s x, x ∈ names (touch id s) ↔ x = id ∨ x ∈ names s
  victim_some : ∀ {s id s'}, victim s = some (id, s') → (names s).Perm (id :: names s')
  victim_none : ∀ {s}, victim s = none → names s = []

/-- What every use of a policy keeps: no page has two names. -/
structure EvictionPolicy.Orderly {σ : Type} (P : EvictionPolicy σ) (W : σ → Prop) : Prop where
  nodup : ∀ {s}, W s → (P.names s).Nodup
  touch : ∀ id {s}, W s → W (P.touch id s)
  forget : ∀ id {s}, W s → W (P.forget id s)
  victim : ∀ {s id s'}, W s → P.victim s = some (id, s') → W s'

/-! ## Least recently used -/

structure Lru where
  order : List ℕ
  deriving DecidableEq, Repr

namespace Lru

def forget (id : ℕ) (s : Lru) : Lru := ⟨s.order.erase id⟩

def touch (id : ℕ) (s : Lru) : Lru := ⟨s.order.erase id ++ [id]⟩

def victim (s : Lru) : Option (ℕ × Lru) :=
  match s.order with
  | [] => none
  | id :: rest => some (id, ⟨rest⟩)

theorem mem_touch (id : ℕ) (s : Lru) (x : ℕ) :
    x ∈ (touch id s).order ↔ x = id ∨ x ∈ s.order := by
  rw [touch, List.mem_append, List.mem_singleton]
  by_cases hx : x = id
  · simp [hx]
  · rw [List.mem_erase_of_ne hx]
    tauto

def policy : EvictionPolicy Lru where
  touch := touch
  forget := forget
  victim := victim
  names := order
  mem_touch := mem_touch
  victim_some := fun {s id s'} h => by
    unfold victim at h
    split at h
    · cases h
    · rename_i ho
      cases h
      rw [ho]
  victim_none := fun {s} h => by
    unfold victim at h
    split at h
    · assumption
    · cases h

theorem orderly : policy.Orderly fun s => s.order.Nodup where
  nodup := fun h => h
  touch := by
    intro id s h
    refine List.nodup_append.mpr ⟨h.erase id, List.nodup_singleton id, ?_⟩
    intro a ha b hb heq
    rw [heq, List.mem_singleton.mp hb] at ha
    exact h.not_mem_erase ha
  forget := fun id s h => h.erase id
  victim := by
    intro s id s' h hv
    exact ((List.nodup_cons.mp ((policy.victim_some hv).nodup_iff.mp h)).2)

end Lru

/-! ## Second chance -/

structure Clock where
  entries : List (ℕ × Bool)
  hand : ℕ
  deriving DecidableEq, Repr

namespace Clock

def names (c : Clock) : List ℕ := c.entries.map Prod.fst

def touch (id : ℕ) (c : Clock) : Clock :=
  match c.entries.findIdx? (·.1 = id) with
  | some i => { c with entries := c.entries.set i (id, true) }
  | none => { c with entries := c.entries ++ [(id, true)] }

def forget (id : ℕ) (c : Clock) : Clock :=
  match c.entries.findIdx? (·.1 = id) with
  | some i => ⟨c.entries.eraseIdx i, if i < c.hand then c.hand - 1 else c.hand⟩
  | none => c

/-- Move the hand on, clearing reference bits, to a page without one. -/
def sweep : ℕ → Clock → Option (ℕ × Clock)
  | 0, c =>
    match c.entries with
    | [] => none
    | e :: rest => some (e.1, { c with entries := rest })
  | n + 1, c =>
    let hand := if c.entries.length ≤ c.hand then 0 else c.hand
    match c.entries[hand]? with
    | none => none
    | some (id, true) => sweep n ⟨c.entries.set hand (id, false), hand + 1⟩
    | some (id, false) => some (id, ⟨c.entries.eraseIdx hand, hand⟩)

/-- Every full sweep clears a reference bit, so two passes are enough. -/
def victim (c : Clock) : Option (ℕ × Clock) := sweep (c.entries.length * 2) c

theorem names_set {c : Clock} {i id : ℕ} {b b' : Bool} (h : c.entries[i]? = some (id, b)) :
    (c.entries.set i (id, b')).map Prod.fst = c.names := by
  rw [List.map_set]
  apply List.ext_getElem?
  intro k
  rw [List.getElem?_set, names]
  split_ifs with hik hlen
  · subst hik
    rw [List.getElem?_map, h]
    rfl
  · subst hik
    exact (List.getElem?_eq_none (Nat.not_lt.mp hlen)).symm
  · rfl

/-- A page with a name keeps its place, another comes last. -/
theorem touch_cases (id : ℕ) (c : Clock) :
    (touch id c).names = c.names ∧ (touch id c).entries.length = c.entries.length ∧ id ∈ c.names ∨
      (touch id c).names = c.names ++ [id] ∧
        (touch id c).entries.length = c.entries.length + 1 ∧ id ∉ c.names := by
  unfold touch
  cases hi : c.entries.findIdx? (·.1 = id) with
  | none =>
    refine .inr ⟨by simp [names], List.length_append, fun hmem => ?_⟩
    obtain ⟨e, he, hid⟩ := List.mem_map.mp hmem
    have hne := List.findIdx?_eq_none_iff.mp hi e he
    exact absurd hid (of_decide_eq_false hne)
  | some i =>
    obtain ⟨hlt, hid, -⟩ := List.findIdx?_eq_some_iff_getElem.mp hi
    have hname : c.entries[i].1 = id := by simpa using hid
    have hentry : c.entries[i]? = some (id, c.entries[i].2) := by
      rw [List.getElem?_eq_getElem hlt, ← hname]
    exact .inl ⟨names_set hentry, List.length_set,
      List.mem_map.mpr ⟨_, List.getElem_mem hlt, hname⟩⟩

theorem mem_touch (id : ℕ) (c : Clock) (x : ℕ) :
    x ∈ (touch id c).names ↔ x = id ∨ x ∈ c.names := by
  rcases touch_cases id c with ⟨hnames, -, hmem⟩ | ⟨hnames, -, -⟩
  · rw [hnames]
    constructor
    · exact .inr
    · rintro (rfl | hx)
      · exact hmem
      · exact hx
  · rw [hnames, List.mem_append, List.mem_singleton, or_comm]

theorem sweep_some (n : ℕ) {c c' : Clock} {id : ℕ} (h : sweep n c = some (id, c')) :
    c.names.Perm (id :: c'.names) := by
  induction n generalizing c with
  | zero =>
    unfold sweep at h
    split at h
    · cases h
    · rename_i e rest he
      cases h
      rw [names, he]
      exact List.Perm.refl _
  | succ n ih =>
    rw [sweep] at h
    set hand := if c.entries.length ≤ c.hand then 0 else c.hand
    split at h
    · cases h
    · rename_i id' he
      have hrec := ih h
      rwa [names, names_set he] at hrec
    · rename_i id' he
      cases h
      obtain ⟨hlt, hget⟩ := List.getElem?_eq_some_iff.mp he
      have hperm := (List.getElem_cons_eraseIdx_perm hlt).symm.map Prod.fst
      rwa [hget] at hperm

theorem sweep_none (n : ℕ) {c : Clock} (h : sweep n c = none) : c.names = [] := by
  induction n generalizing c with
  | zero =>
    unfold sweep at h
    split at h
    · rename_i he
      rw [names, he]
      rfl
    · cases h
  | succ n ih =>
    rw [sweep] at h
    set hand := if c.entries.length ≤ c.hand then 0 else c.hand with hhand
    split at h
    · rename_i he
      have hlen := List.getElem?_eq_none_iff.mp he
      have hzero : c.entries.length = 0 := by
        split_ifs at hhand <;> omega
      rw [names, List.length_eq_zero_iff.mp hzero]
      rfl
    · rename_i id' he
      have hrec := ih h
      rwa [names, names_set he] at hrec
    · cases h

def policy : EvictionPolicy Clock where
  touch := touch
  forget := forget
  victim := victim
  names := names
  mem_touch := mem_touch
  victim_some := sweep_some _
  victim_none := sweep_none _

/-- The hand is at an entry, or past the last. -/
structure InBounds (c : Clock) : Prop where
  nodup : c.names.Nodup
  hand : c.hand ≤ c.entries.length

theorem inBounds_new : InBounds ⟨[], 0⟩ where
  nodup := by
    change ([] : List ℕ).Nodup
    exact List.nodup_nil
  hand := Nat.le_refl _

/-- How many reference bits are set. -/
def referenced (c : Clock) : ℕ := c.entries.countP fun e => e.2

theorem referenced_clear {c : Clock} {i id : ℕ} (h : c.entries[i]? = some (id, true)) (hand : ℕ) :
    referenced ⟨c.entries.set i (id, false), hand⟩ + 1 = referenced c := by
  obtain ⟨hlt, hget⟩ := List.getElem?_eq_some_iff.mp h
  rw [referenced, referenced, List.countP_set hlt, hget]
  have hpos : 0 < c.entries.countP fun e => e.2 :=
    List.countP_pos_iff.mpr ⟨(id, true), hget ▸ List.getElem_mem hlt, rfl⟩
  simp
  omega

/-- With a round for every set bit and one more, the sweep ends at a page without one. -/
theorem sweep_hand {n : ℕ} {c c' : Clock} {id : ℕ} (hn : referenced c < n)
    (h : sweep n c = some (id, c')) : c'.hand ≤ c'.entries.length := by
  induction n generalizing c with
  | zero => cases hn
  | succ n ih =>
    rw [sweep] at h
    set hand := if c.entries.length ≤ c.hand then 0 else c.hand
    split at h
    · cases h
    · rename_i id' he
      have hclear := referenced_clear he (hand + 1)
      exact ih (by omega) h
    · rename_i id' he
      cases h
      obtain ⟨hlt, -⟩ := List.getElem?_eq_some_iff.mp he
      rw [List.length_eraseIdx_of_lt hlt]
      exact Nat.le_sub_one_of_lt hlt

theorem hand_touch (id : ℕ) (c : Clock) : (touch id c).hand = c.hand := by
  unfold touch
  cases c.entries.findIdx? (·.1 = id) with
  | none => rfl
  | some i => rfl

theorem orderly : policy.Orderly InBounds where
  nodup := fun h => h.nodup
  touch := by
    intro id c h
    constructor
    · change (touch id c).names.Nodup
      rcases touch_cases id c with ⟨hnames, -, -⟩ | ⟨hnames, -, hnew⟩
      · rw [hnames]
        exact h.nodup
      · rw [hnames, List.nodup_append]
        refine ⟨h.nodup, List.nodup_singleton id, fun a ha b hb heq => ?_⟩
        rw [heq, List.mem_singleton.mp hb] at ha
        exact hnew ha
    · change (touch id c).hand ≤ (touch id c).entries.length
      rw [hand_touch]
      have hhand := h.hand
      rcases touch_cases id c with ⟨-, hlen, -⟩ | ⟨-, hlen, -⟩ <;> omega
  forget := by
    intro id c h
    change InBounds (forget id c)
    unfold forget
    cases hi : c.entries.findIdx? (·.1 = id) with
    | none => exact h
    | some i =>
      obtain ⟨hlt, -, -⟩ := List.findIdx?_eq_some_iff_getElem.mp hi
      refine ⟨h.nodup.sublist ((List.eraseIdx_sublist c.entries i).map Prod.fst), ?_⟩
      have hhand := h.hand
      have hlen := List.length_eraseIdx_of_lt hlt
      dsimp only
      split_ifs <;> omega
  victim := by
    intro c id c' h hv
    have hperm := policy.victim_some hv
    refine ⟨(List.nodup_cons.mp (hperm.nodup_iff.mp h.nodup)).2, ?_⟩
    have hpos : 0 < c.entries.length := by
      have hlen := hperm.length_eq
      change (c.entries.map Prod.fst).length = _ at hlen
      rw [List.length_map, List.length_cons] at hlen
      omega
    have hset : referenced c ≤ c.entries.length := List.countP_le_length
    exact sweep_hand (by omega) hv

end Clock

end Adabt.Storage
