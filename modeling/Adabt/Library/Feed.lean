import Mathlib.Data.List.Basic
import Mathlib.Data.Nat.Notation

/-! # Separating serialisations

A serialisation writes one list of tokens and leaves out some of the extents a
reader would need. Two writings are separated when equal tokens, read with equal
extents, can only be split in the same place and only for the stated reason. -/

set_option autoImplicit false

namespace Adabt.Library

variable {α β γ : Type} {s s' t t' : List α} {k k' m m' : List β} {P Q : Prop}

/-- Whatever follows both, `s` and `t` with the extents `k` and `m` end at the
same place, and then `P` holds. -/
def Separates (P : Prop) (s t : List α) (k m : List β) : Prop :=
  ∀ r r' l l', s ++ r = t ++ r' → k ++ l = m ++ l' → P ∧ r = r' ∧ l = l'

namespace Separates

theorem imp (h : Separates P s t k m) (f : P → Q) : Separates Q s t k m := by
  intro r r' l l' hs hk
  obtain ⟨hp, hr, hl⟩ := h r r' l l' hs hk
  exact ⟨f hp, hr, hl⟩

theorem nil : Separates True ([] : List α) [] ([] : List β) [] :=
  fun _ _ _ _ hs hk => ⟨trivial, hs, hk⟩

theorem append (h : Separates P s t k m) (g : P → Separates Q s' t' k' m') :
    Separates (P ∧ Q) (s ++ s') (t ++ t') (k ++ k') (m ++ m') := by
  intro r r' l l' hs hk
  rw [List.append_assoc, List.append_assoc] at hs hk
  obtain ⟨hp, hr, hl⟩ := h _ _ _ _ hs hk
  obtain ⟨hq, hr, hl⟩ := g hp _ _ _ _ hr hl
  exact ⟨⟨hp, hq⟩, hr, hl⟩

/-- Tokens of a known number need no extent. -/
theorem fixed (h : s.length = t.length) : Separates (s = t) s t ([] : List β) [] := by
  intro r r' l l' hs hk
  obtain ⟨hst, hr⟩ := List.append_inj hs h
  exact ⟨hst, hr, hk⟩

/-- What the extents alone tell apart. -/
theorem extent (a b : β) : Separates (a = b) ([] : List α) [] [a] [b] := by
  intro r r' l l' hs hk
  rw [List.singleton_append, List.singleton_append, List.cons.injEq] at hk
  exact ⟨hk.1, hs, hk.2⟩

/-- A list whose length is known is separated when its elements are. -/
theorem flatMap {w : γ → List α} {e : γ → List β}
    (h : ∀ x y, Separates (x = y) (w x) (w y) (e x) (e y)) (xs ys : List γ)
    (hl : xs.length = ys.length) :
    Separates (xs = ys) (xs.flatMap w) (ys.flatMap w) (xs.flatMap e) (ys.flatMap e) := by
  induction xs generalizing ys with
  | nil =>
    rw [List.length_eq_zero_iff.mp hl.symm]
    exact nil.imp fun _ => rfl
  | cons x xs ih =>
    cases ys with
    | nil => simp at hl
    | cons y ys =>
      rw [List.flatMap_cons, List.flatMap_cons, List.flatMap_cons, List.flatMap_cons]
      exact ((h x y).append fun _ => ih ys (by simpa using hl)).imp fun h => by rw [h.1, h.2]

end Separates

/-- Reading up to a mark: the tokens before it hold a known number of marks. -/
theorem append_mark_inj [DecidableEq α] {a : α} (h : s.count a = t.count a)
    {r r' : List α} (hs : s ++ a :: r = t ++ a :: r') : s = t ∧ r = r' := by
  induction s generalizing t with
  | nil =>
    cases t with
    | nil => exact ⟨rfl, by simpa using hs⟩
    | cons b t =>
      rw [List.nil_append, List.cons_append, List.cons.injEq] at hs
      rw [← hs.1, List.count_nil, List.count_cons_self] at h
      omega
  | cons b s ih =>
    cases t with
    | nil =>
      rw [List.nil_append, List.cons_append, List.cons.injEq] at hs
      rw [hs.1, List.count_nil, List.count_cons_self] at h
      omega
    | cons c t =>
      rw [List.cons_append, List.cons_append, List.cons.injEq] at hs
      obtain ⟨rfl, hs⟩ := hs
      rw [List.count_cons, List.count_cons] at h
      obtain ⟨rfl, hr⟩ := ih (by omega) hs
      exact ⟨rfl, hr⟩

/-- A terminated string is separated by the number of terminators inside it. -/
theorem Separates.marked [DecidableEq α] (s t : List α) (a : α) :
    Separates (s = t) (s ++ [a]) (t ++ [a]) [s.count a] [t.count a] := by
  intro r r' l l' hs hk
  rw [List.singleton_append, List.singleton_append, List.cons.injEq] at hk
  rw [List.append_assoc, List.append_assoc, List.singleton_append, List.singleton_append] at hs
  obtain ⟨hst, hr⟩ := append_mark_inj hk.1 hs
  exact ⟨hst, hr, hk.2⟩

end Adabt.Library
