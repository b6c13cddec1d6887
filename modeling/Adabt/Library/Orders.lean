import Mathlib.Data.List.Basic
import Mathlib.Data.List.Induction
import Mathlib.Order.Compare
import Mathlib.Order.Defs.LinearOrder

/-! # Three-way comparisons

A total preorder given by a three-way comparison is a matter of triples: the
comparisons among any three things are those of three points of a line. -/

set_option autoImplicit false

namespace Adabt.Library
open Std

/-- From the first two comparisons of a chain, the third. -/
def Linked (o₁ o₂ o₃ : Ordering) : Prop := o₁ ≠ .gt → o₂ ≠ .gt → o₃ = o₁.then o₂

namespace Linked

theorem of_lt (o₃ : Ordering) {o₁ o₂ : Ordering} (h : o₁ = .lt ∨ o₂ = .lt) (h₃ : o₃ = .lt) :
    Linked o₁ o₂ o₃ := by
  intro h₁ h₂
  cases o₁ <;> cases o₂ <;> simp_all

theorem comm {a b c : Ordering} (h : Linked a b c) : Linked b a c := by
  intro hb ha
  rw [h ha hb]
  cases a <;> cases b <;> simp_all

/-- A lexicographic comparison is a chain when both its parts are. -/
theorem lexicographic {a b c d e f : Ordering} (h : Linked a b c) (g : Linked d e f) :
    Linked (a.then d) (b.then e) (c.then f) := by
  intro h₁ h₂
  have ha : a ≠ .gt := by
    rintro rfl
    exact h₁ rfl
  have hb : b ≠ .gt := by
    rintro rfl
    exact h₂ rfl
  rw [h ha hb]
  cases a with
  | lt => rfl
  | gt => exact absurd rfl ha
  | eq =>
    cases b with
    | lt => cases d <;> first | rfl | exact absurd rfl h₁
    | gt => exact absurd rfl hb
    | eq => exact g h₁ h₂

end Linked

variable {β : Type} {cmp : β → β → Ordering}

theorem linked_of_transCmp [TransCmp cmp] (x y z : β) :
    Linked (cmp x y) (cmp y z) (cmp x z) := by
  intro h₁ h₂
  cases hxy : cmp x y with
  | lt => exact TransCmp.lt_of_lt_of_isLE hxy (Ordering.isLE_iff_ne_gt.mpr h₂)
  | eq => exact TransCmp.congr_left hxy
  | gt => exact absurd hxy h₁

theorem linked_compare {α : Type} [LinearOrder α] (x y z : α) :
    Linked (compare x y) (compare y z) (compare x z) := linked_of_transCmp x y z

/-- Three things compare as three points of some linear order do. -/
def Ranked (cmp : β → β → Ordering) (x y z : β) : Prop :=
  ∃ (α : Type) (_ : LinearOrder α) (i j k : α),
    cmp x y = compare i j ∧ cmp y z = compare j k ∧ cmp x z = compare i k

namespace Ranked

theorem linked {x y z : β} (h : Ranked cmp x y z) : Linked (cmp x y) (cmp y z) (cmp x z) := by
  obtain ⟨α, _, i, j, k, hxy, hyz, hxz⟩ := h
  rw [hxy, hyz, hxz]
  exact linked_compare i j k

theorem swap_left [OrientedCmp cmp] {x y z : β} (h : Ranked cmp x y z) : Ranked cmp y x z := by
  obtain ⟨α, l, i, j, k, hxy, hyz, hxz⟩ := h
  refine ⟨α, l, j, i, k, ?_, hxz, hyz⟩
  rw [(OrientedCmp.eq_swap : cmp y x = _), hxy]
  exact OrientedCmp.eq_swap.symm

theorem swap_right [OrientedCmp cmp] {x y z : β} (h : Ranked cmp x y z) : Ranked cmp x z y := by
  obtain ⟨α, l, i, j, k, hxy, hyz, hxz⟩ := h
  refine ⟨α, l, i, k, j, hxz, ?_, hxy⟩
  rw [(OrientedCmp.eq_swap : cmp z y = _), hyz]
  exact OrientedCmp.eq_swap.symm

end Ranked

/-! ## Comparisons on a line -/

/-- On these keys the comparison is that of points of a line. -/
structure LineOn (cmp : β → β → Ordering) (K : β → Prop) : Prop where
  swap : ∀ a b, cmp a b = (cmp b a).swap
  linked : ∀ a b c, K a → K b → K c → Linked (cmp a b) (cmp b c) (cmp a c)

namespace LineOn

variable {cmp : β → β → Ordering} {K : β → Prop}

theorem symm (h : LineOn cmp K) {a b : β} (hab : cmp a b = .eq) : cmp b a = .eq := by
  rw [h.swap, hab, Ordering.swap_eq]

theorem lt_of_gt (h : LineOn cmp K) {a b : β} (hab : cmp a b = .gt) : cmp b a = .lt := by
  rw [h.swap, hab, Ordering.swap_gt]

theorem gt_of_lt (h : LineOn cmp K) {a b : β} (hab : cmp a b = .lt) : cmp b a = .gt := by
  rw [h.swap, hab, Ordering.swap_lt]

theorem self (h : LineOn cmp K) (a : β) : cmp a a = .eq := by
  have hs := h.swap a a
  cases hc : cmp a a with
  | lt => rw [hc] at hs; cases hs
  | gt => rw [hc] at hs; cases hs
  | eq => rfl

variable {a b c : β} (ha : K a) (hb : K b) (hc : K c)
include ha hb hc

/-- Keys that tie compare alike to every other. -/
theorem congr_left (h : LineOn cmp K) (hab : cmp a b = .eq) : cmp a c = cmp b c := by
  by_cases hbc : cmp b c = .gt
  · have hcb := h.lt_of_gt hbc
    have hba := h.symm hab
    have hca := h.linked c b a hc hb ha (by simp [hcb]) (by simp [hba])
    rw [hcb, Ordering.lt_then] at hca
    rw [hbc, h.gt_of_lt hca]
  · rw [h.linked a b c ha hb hc (by simp [hab]) hbc, hab, Ordering.eq_then]

theorem congr_right (h : LineOn cmp K) (hbc : cmp b c = .eq) : cmp a b = cmp a c := by
  rw [h.swap a b, h.swap a c, h.congr_left hb hc ha hbc]

theorem lt_trans (h : LineOn cmp K) (hab : cmp a b = .lt) (hbc : cmp b c = .lt) :
    cmp a c = .lt := by
  rw [h.linked a b c ha hb hc (by simp [hab]) (by simp [hbc]), hab, Ordering.lt_then]

end LineOn

/-- The line the other way round. -/
theorem LineOn.flip {cmp : β → β → Ordering} {K : β → Prop} (h : LineOn cmp K) :
    LineOn (fun a b => cmp b a) K :=
  ⟨fun a b => h.swap b a, fun a b c ha hb hc => (h.linked c b a hc hb ha).comm⟩

theorem LineOn.mono {cmp : β → β → Ordering} {K L : β → Prop} (h : LineOn cmp K)
    (hL : ∀ a, L a → K a) : LineOn cmp L :=
  ⟨h.swap, fun a b c ha hb hc => h.linked a b c (hL a ha) (hL b hb) (hL c hc)⟩

/-! ## The first of a list -/

/-- Keep what was found so far, unless this comes before it. -/
def keepFirst (cmp : β → β → Ordering) (m : Option β) (v : β) : Option β :=
  if m.all fun m => cmp v m = .lt then some v else m

def firstOf (cmp : β → β → Ordering) (vs : List β) : Option β := vs.foldl (keepFirst cmp) none

theorem firstOf_append (cmp : β → β → Ordering) (vs : List β) (v : β) :
    firstOf cmp (vs ++ [v]) = keepFirst cmp (firstOf cmp vs) v := by
  rw [firstOf, List.foldl_append]
  rfl

theorem firstOf_spec {cmp : β → β → Ordering} {vs : List β} (hK : LineOn cmp (· ∈ vs))
    (hne : vs ≠ []) : ∃ m ∈ vs, firstOf cmp vs = some m ∧ ∀ v ∈ vs, cmp m v ≠ .gt := by
  induction vs using List.reverseRecOn with
  | nil => exact absurd rfl hne
  | append_singleton vs v ih =>
    have hv : v ∈ vs ++ [v] := List.mem_append_right _ List.mem_cons_self
    have hself : ∀ w ∈ [v], cmp v w ≠ .gt := by
      intro w hw
      rw [List.mem_singleton.mp hw, hK.self]
      exact nofun
    rw [firstOf_append]
    by_cases hvs : vs = []
    · subst hvs
      exact ⟨v, hv, rfl, hself⟩
    · obtain ⟨m, hm, hfirst, hall⟩ := ih (hK.mono fun a ha => List.mem_append_left _ ha) hvs
      have hm' : m ∈ vs ++ [v] := List.mem_append_left _ hm
      rw [hfirst, keepFirst]
      by_cases hlt : cmp v m = .lt
      · refine ⟨v, hv, by simp [hlt], fun w hw => ?_⟩
        rcases List.mem_append.mp hw with hw | hw
        · have hlink := hK.linked v m w hv hm' (List.mem_append_left _ hw) (by simp [hlt]) (hall w hw)
          rw [hlink, hlt, Ordering.lt_then]
          exact nofun
        · exact hself w hw
      · refine ⟨m, hm', by simp [hlt], fun w hw => ?_⟩
        rcases List.mem_append.mp hw with hw | hw
        · exact hall w hw
        · rw [List.mem_singleton.mp hw]
          exact fun hgt => hlt (hK.lt_of_gt hgt)

/-- The first of a list and the first of it in another order tie. -/
theorem firstOf_perm {cmp : β → β → Ordering} {vs ws : List β} (hK : LineOn cmp (· ∈ vs))
    (hp : vs.Perm ws) :
    Option.Rel (fun m n => cmp m n = .eq) (firstOf cmp vs) (firstOf cmp ws) := by
  by_cases hne : vs = []
  · subst hne
    obtain rfl := hp.nil_eq
    exact .none
  · obtain ⟨m, hm, hfirst, hall⟩ := firstOf_spec hK hne
    obtain ⟨n, hn, hfirst', hall'⟩ :=
      firstOf_spec (hK.mono fun a ha => hp.mem_iff.mpr ha) fun h => hne (h ▸ hp).eq_nil
    rw [hfirst, hfirst']
    apply Option.Rel.some
    have hmn := hall n (hp.mem_iff.mpr hn)
    cases hc : cmp m n with
    | lt => exact absurd (hK.gt_of_lt hc) (hall' m (hp.mem_iff.mp hm))
    | eq => rfl
    | gt => exact absurd hc hmn

end Adabt.Library
