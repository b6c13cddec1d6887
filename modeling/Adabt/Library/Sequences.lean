import Mathlib.Data.List.Forall2
import Mathlib.Data.List.Perm.Basic
import Mathlib.Data.List.Nodup
import Mathlib.Logic.Relation

/-! # Sequences

Two operations on growable arrays: the removal that fills the hole with the
last element, and the search for the last element with a property. After them,
lists related element by element, lists with whatever is required first, and the
members of a list by kind. -/

set_option autoImplicit false

namespace Adabt.Library

variable {α : Type}

def lastFirst (xs : List α) : List α :=
  match xs.getLast? with
  | none => []
  | some last => last :: xs.dropLast

/-- Remove the first `a`, if there is one, moving the last element into its place. -/
def swapRemoveFirst [DecidableEq α] (a : α) : List α → List α
  | [] => []
  | x :: xs => if x = a then lastFirst xs else x :: swapRemoveFirst a xs

theorem lastFirst_perm (xs : List α) : (lastFirst xs).Perm xs := by
  by_cases h : xs = []
  · subst h
    exact .refl _
  · rw [lastFirst, List.getLast?_eq_some_getLast h]
    exact ((List.perm_append_singleton _ _).symm).trans
      (.of_eq (List.dropLast_append_getLast h))

theorem swapRemoveFirst_perm [DecidableEq α] (a : α) (xs : List α) :
    (swapRemoveFirst a xs).Perm (xs.erase a) := by
  induction xs with
  | nil => exact .refl _
  | cons x xs ih =>
    rw [swapRemoveFirst]
    by_cases h : x = a
    · rw [if_pos h, h, List.erase_cons_head]
      exact lastFirst_perm xs
    · rw [if_neg h, List.erase_cons_tail (by simpa using h)]
      exact ih.cons x

theorem mem_of_mem_swapRemoveFirst [DecidableEq α] {a b : α} {xs : List α}
    (h : b ∈ swapRemoveFirst a xs) : b ∈ xs :=
  List.mem_of_mem_erase ((swapRemoveFirst_perm a xs).mem_iff.mp h)

/-- The index of the last element with `p`. -/
def rposition (p : α → Bool) : List α → Option ℕ
  | [] => none
  | x :: xs =>
    match rposition p xs with
    | some i => some (i + 1)
    | none => if p x then some 0 else none

theorem rposition_eq_none {p : α → Bool} {xs : List α} :
    rposition p xs = none ↔ ∀ x ∈ xs, p x = false := by
  induction xs with
  | nil => simp [rposition]
  | cons x xs ih =>
    rw [rposition, List.forall_mem_cons, ← ih]
    cases rposition p xs with
    | none => simp
    | some i => simp

/-- The last element with `p` splits the list: after it nothing has `p`. -/
theorem rposition_eq_some {p : α → Bool} {xs : List α} {i : ℕ} (h : rposition p xs = some i) :
    ∃ before x after, xs = before ++ x :: after ∧ before.length = i ∧ p x = true ∧
      ∀ y ∈ after, p y = false := by
  induction xs generalizing i with
  | nil => cases h
  | cons x xs ih =>
    rw [rposition] at h
    cases hr : rposition p xs with
    | some j =>
      obtain ⟨before, y, after, rfl, hj, hy, hafter⟩ := ih hr
      rw [hr] at h
      cases h
      exact ⟨x :: before, y, after, rfl, by simp [hj], hy, hafter⟩
    | none =>
      rw [hr] at h
      simp only [Option.ite_none_right_eq_some, Option.some.injEq] at h
      obtain ⟨hx, rfl⟩ := h
      exact ⟨[], x, xs, rfl, rfl, hx, rposition_eq_none.mp hr⟩

/-! ## Lists side by side -/

section Beside

variable {β : Type} {R : α → β → Prop} {xs : List α} {ys : List β}

theorem forall₂_mem_left (h : List.Forall₂ R xs ys) {x : α} (hx : x ∈ xs) : ∃ y ∈ ys, R x y := by
  induction h with
  | nil => cases hx
  | cons hxy _ ih =>
    rcases List.mem_cons.mp hx with rfl | hx
    · exact ⟨_, List.mem_cons_self, hxy⟩
    · obtain ⟨y, hy, hR⟩ := ih hx
      exact ⟨y, List.mem_cons_of_mem _ hy, hR⟩

theorem forall₂_mem_right (h : List.Forall₂ R xs ys) {y : β} (hy : y ∈ ys) : ∃ x ∈ xs, R x y :=
  forall₂_mem_left h.flip hy

theorem forall₂_append_left {as : List α} (h : List.Forall₂ R (xs ++ as) ys) :
    ∃ bs cs, ys = bs ++ cs ∧ List.Forall₂ R xs bs ∧ List.Forall₂ R as cs := by
  have htake := List.forall₂_take_append ys xs as h.flip
  have hdrop := List.forall₂_drop_append ys xs as h.flip
  exact ⟨_, _, (List.take_append_drop _ _).symm, htake.flip, hdrop.flip⟩

end Beside

/-! ## What is required comes first -/

section Requiring
open Relation

variable {requires : α → α → Prop}

/-- Whatever a member requires comes before it. -/
def Requiring (requires : α → α → Prop) (l : List α) : Prop :=
  ∀ before a after, l = before ++ a :: after → ∀ b, requires a b → b ∈ before

theorem requiring_nil : Requiring requires [] := by
  intro before a after h
  cases before <;> cases h

theorem Requiring.snoc {l : List α} {a : α} (h : Requiring requires l)
    (ha : ∀ b, requires a b → b ∈ l) : Requiring requires (l ++ [a]) := by
  intro before c after heq b hb
  rcases List.eq_nil_or_concat after with rfl | ⟨after, last, rfl⟩
  · obtain ⟨rfl, hc⟩ := List.append_inj' heq rfl
    obtain rfl : a = c := (List.cons.inj hc).1
    exact ha b hb
  · rw [List.concat_eq_append, ← List.cons_append, ← List.append_assoc] at heq
    obtain ⟨rfl, -⟩ := List.append_inj' heq rfl
    exact h before c after rfl b hb

variable [DecidableEq α]

theorem Requiring.idxOf_lt {l : List α} {a b : α} (h : Requiring requires l) (ha : a ∈ l)
    (hb : requires a b) : l.idxOf b < l.idxOf a := by
  obtain ⟨before, after, rfl, hnot⟩ := List.eq_append_cons_of_mem ha
  rw [List.idxOf_append_of_mem (h before a after rfl b hb), List.idxOf_append_of_notMem hnot,
    List.idxOf_cons_self, Nat.add_zero]
  exact List.idxOf_lt_length_of_mem (h before a after rfl b hb)

/-- Nothing in such a list requires itself, directly or through others. -/
theorem Requiring.acyclic {l : List α} (h : Requiring requires l)
    (hl : ∀ a b, requires a b → a ∈ l) (a : α) : ¬TransGen requires a a := by
  have hlt : ∀ {b c}, TransGen requires b c → l.idxOf c < l.idxOf b := by
    intro b c hbc
    induction hbc with
    | single hb => exact h.idxOf_lt (hl _ _ hb) hb
    | tail _ hc ih => exact Nat.lt_trans (h.idxOf_lt (hl _ _ hc) hc) ih
  exact fun ha => Nat.lt_irrefl _ (hlt ha)

end Requiring

/-! ## Parts of a list -/

/-- The members of each kind, kind after kind, are the members. -/
theorem parts_perm (kind : α → ℕ) (n : ℕ) {xs : List α} (h : ∀ x ∈ xs, kind x < n) :
    (((List.range n).map fun i => xs.filter fun x => kind x = i).flatten).Perm xs := by
  induction n generalizing xs with
  | zero =>
    rw [List.eq_nil_iff_forall_not_mem.mpr fun x hx => Nat.not_lt_zero _ (h x hx)]
    exact List.Perm.refl _
  | succ n ih =>
    have hbelow : (List.range n).map (fun i => xs.filter fun x => kind x = i) =
        (List.range n).map fun i => (xs.filter fun x => kind x < n).filter fun x => kind x = i := by
      refine List.map_congr_left fun i hi => ?_
      rw [List.filter_filter]
      refine List.filter_congr fun x _ => ?_
      have hin := List.mem_range.mp hi
      simp only [← Bool.decide_and, decide_eq_decide]
      omega
    have hlast : xs.filter (fun x => kind x = n) = xs.filter fun x => !decide (kind x < n) := by
      refine List.filter_congr fun x hx => ?_
      have hx := h x hx
      rw [← decide_not, decide_eq_decide]
      omega
    rw [List.range_succ, List.map_append, List.flatten_append, List.map_singleton,
      List.flatten_singleton, hbelow, hlast]
    refine ((ih fun x hx => ?_).append_right _).trans (List.filter_append_perm _ xs)
    exact of_decide_eq_true (List.mem_filter.mp hx).2

end Adabt.Library
