import Adabt.Library.Program
import Mathlib.Algebra.BigOperators.Group.Finset.Piecewise
import Mathlib.Algebra.Order.BigOperators.Group.Finset
import Mathlib.Data.Fintype.Basic
import Mathlib.Logic.Function.Basic

/-! # Counters that fade

A count is kept in several cells. An event adds one to a cell, and fading scales
every cell down. With no events a count fades to zero, at no time is it more than
the events there were, and a count of some of the events stays below one of all. -/

set_option autoImplicit false

namespace Adabt.Library

inductive Tick (ι : Type) where
  | bump (i : ι)
  | fade
  | idle

namespace Tick

variable {ι : Type}

def isFade : Tick ι → Bool
  | fade => true
  | _ => false

def isBump : Tick ι → Bool
  | bump _ => true
  | _ => false

end Tick

/-- How a cell is added to and scaled. Only zero is left as it is. -/
structure Fading where
  add : ℕ → ℕ
  scale : ℕ → ℕ
  add_le : ∀ n, add n ≤ n + 1
  scale_zero : scale 0 = 0
  scale_lt : ∀ n, 0 < n → scale n < n

namespace Fading

open Tick (isFade isBump)

variable {ι : Type} [DecidableEq ι] (A : Fading)

def tick : Tick ι → (ι → ℕ) → ι → ℕ
  | .bump i, c => Function.update c i (A.add (c i))
  | .fade, c => fun i => A.scale (c i)
  | .idle, c => c

theorem scale_le (n : ℕ) : A.scale n ≤ n - 1 := by
  rcases Nat.eq_zero_or_pos n with rfl | hn
  · exact A.scale_zero.le
  · exact Nat.le_sub_one_of_lt (A.scale_lt n hn)

theorem tick_apply_le (t : Tick ι) (c : ι → ℕ) (i : ι) : A.tick t c i ≤ c i + [t].countP isBump := by
  cases t with
  | bump j =>
    by_cases hij : i = j
    · subst hij
      rw [tick, Function.update_self]
      exact A.add_le (c i)
    · rw [tick, Function.update_of_ne hij]
      exact Nat.le_add_right _ _
  | fade => exact (A.scale_le (c i)).trans (Nat.sub_le _ _)
  | idle => exact le_rfl

/-- As many fadings as a count has, and no event, leave nothing of it. -/
theorem run_eq_zero {c : ι → ℕ} {ts : List (Tick ι)} (hts : ∀ t ∈ ts, isBump t = false)
    (hc : ∀ i, c i ≤ ts.countP isFade) (i : ι) : run A.tick c ts i = 0 := by
  induction ts generalizing c with
  | nil => exact Nat.le_zero.mp (hc i)
  | cons t ts ih =>
    refine ih (fun t' ht' => hts t' (List.mem_cons_of_mem t ht')) fun j => ?_
    have hj := hc j
    have ht := hts t List.mem_cons_self
    cases t with
    | bump k => cases ht
    | fade =>
      have hle := A.scale_le (c j)
      rw [List.countP_cons_of_pos rfl] at hj
      change A.scale (c j) ≤ _
      omega
    | idle => exact hj

section Total

variable [Fintype ι]

theorem sum_tick_le (t : Tick ι) (c : ι → ℕ) :
    ∑ i, A.tick t c i ≤ ∑ i, c i + [t].countP isBump := by
  cases t with
  | bump j =>
    have hle : ∑ i, A.tick (.bump j) c i ≤ ∑ i, (c i + if i = j then 1 else 0) := by
      apply Finset.sum_le_sum
      intro i _
      by_cases hij : i = j
      · subst hij
        rw [tick, Function.update_self, if_pos rfl]
        exact A.add_le (c i)
      · rw [tick, Function.update_of_ne hij, if_neg hij]
        rfl
    rw [Finset.sum_add_distrib, Finset.sum_ite_eq_of_mem' _ _ _ (Finset.mem_univ j)] at hle
    exact hle
  | fade => exact Finset.sum_le_sum fun i _ => (A.scale_le (c i)).trans (Nat.sub_le _ _)
  | idle => exact le_rfl

/-- A count is never more than its events. -/
theorem sum_run_le (c : ι → ℕ) (ts : List (Tick ι)) :
    ∑ i, run A.tick c ts i ≤ ∑ i, c i + ts.countP isBump := by
  induction ts generalizing c with
  | nil => exact le_rfl
  | cons t ts ih =>
    have hstep := A.sum_tick_le t c
    have hrest := ih (A.tick t c)
    rw [run_cons, show t :: ts = [t] ++ ts from rfl, List.countP_append]
    omega

end Total

/-- Whatever adds to the first count adds to the second, and both fade together. -/
inductive Among : Tick ι → Tick ι → Prop
  | both (i : ι) : Among (.bump i) (.bump i)
  | second (i : ι) : Among .idle (.bump i)
  | fade : Among .fade .fade
  | idle : Among .idle .idle

/-- Below a bound the cells are added to exactly and scaled in their order. -/
structure Exact (bound : ℕ) : Prop where
  add_eq : ∀ n, n < bound → A.add n = n + 1
  mono : ∀ m n, m ≤ n → n < bound → A.scale m ≤ A.scale n

variable {A}

theorem Exact.tick_le {bound : ℕ} (h : A.Exact bound) {c d : ι → ℕ} {t u : Tick ι} (htu : Among t u)
    (hd : ∀ i, d i < bound) (hcd : ∀ i, c i ≤ d i) (i : ι) : A.tick t c i ≤ A.tick u d i := by
  cases htu with
  | both j =>
    by_cases hij : i = j
    · subst hij
      rw [tick, tick, Function.update_self, Function.update_self,
        h.add_eq _ ((hcd i).trans_lt (hd i)), h.add_eq _ (hd i)]
      exact Nat.succ_le_succ (hcd i)
    · rw [tick, tick, Function.update_of_ne hij, Function.update_of_ne hij]
      exact hcd i
  | second j =>
    by_cases hij : i = j
    · subst hij
      rw [tick, tick, Function.update_self, h.add_eq _ (hd i)]
      exact Nat.le_succ_of_le (hcd i)
    · rw [tick, tick, Function.update_of_ne hij]
      exact hcd i
  | fade => exact h.mono _ _ (hcd i) (hd i)
  | idle => exact hcd i

/-- With fewer events than the bound the first count stays below the second. -/
theorem Exact.run_le {bound : ℕ} (h : A.Exact bound) {ts us : List (Tick ι)}
    (htu : List.Forall₂ Among ts us) {c d : ι → ℕ} (hd : ∀ i, d i + us.countP isBump < bound)
    (hcd : ∀ i, c i ≤ d i) (i : ι) : run A.tick c ts i ≤ run A.tick d us i := by
  induction htu generalizing c d with
  | nil => exact hcd i
  | @cons t u ts us htu hrest ih =>
    rw [show u :: us = [u] ++ us from rfl, List.countP_append] at hd
    apply ih
    · intro j
      have hle := A.tick_apply_le u d j
      have hj := hd j
      omega
    · exact h.tick_le htu (fun j => (Nat.le_add_right _ _).trans_lt (hd j)) hcd

/-- A cell that never fades keeps what it counted. -/
theorem Exact.le_run {bound : ℕ} (h : A.Exact bound) {c : ι → ℕ} {ts : List (Tick ι)}
    (hts : ∀ t ∈ ts, isFade t = false) {i : ι} (hc : c i + ts.countP isBump < bound) :
    c i ≤ run A.tick c ts i := by
  induction ts generalizing c with
  | nil => exact le_rfl
  | cons t ts ih =>
    rw [show t :: ts = [t] ++ ts from rfl, List.countP_append] at hc
    have hle := A.tick_apply_le t c i
    refine le_trans ?_ (ih (fun t' ht' => hts t' (List.mem_cons_of_mem t ht')) (by omega))
    cases t with
    | bump j =>
      by_cases hij : i = j
      · subst hij
        rw [tick, Function.update_self, h.add_eq (c i) (by omega)]
        exact Nat.le_succ (c i)
      · rw [tick, Function.update_of_ne hij]
    | fade => cases hts .fade List.mem_cons_self
    | idle => exact le_rfl

end Fading

end Adabt.Library
