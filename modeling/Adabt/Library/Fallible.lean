import Mathlib.Data.List.Forall2

/-! # Fallible computations

Inversion rules for `Except`: what a successful bind, guard or loop says about
its parts. -/

set_option autoImplicit false

namespace Adabt.Library

variable {ε α β : Type}

theorem bind_eq_ok {x : Except ε α} {f : α → Except ε β} {b : β} :
    (x >>= f) = .ok b ↔ ∃ a, x = .ok a ∧ f a = .ok b := by
  cases x with
  | error e => simp [bind, Except.bind]
  | ok a => simp [bind, Except.bind]

theorem map_eq_ok {x : Except ε α} {f : α → β} {b : β} :
    (f <$> x) = .ok b ↔ ∃ a, x = .ok a ∧ f a = b := by
  cases x with
  | error e => simp [Functor.map, Except.map]
  | ok a => simp [Functor.map, Except.map]

@[simp] theorem ok_bind (a : α) (f : α → Except ε β) : ((.ok a : Except ε α) >>= f) = f a := rfl

@[simp] theorem error_bind (e : ε) (f : α → Except ε β) :
    ((.error e : Except ε α) >>= f) = .error e := rfl

/-- Refuse with `e` unless the condition holds. -/
def ensure (c : Prop) [Decidable c] (e : ε) : Except ε Unit := if c then .ok () else .error e

@[simp] theorem ensure_eq_ok {c : Prop} [Decidable c] {e : ε} {u : Unit} :
    ensure c e = .ok u ↔ c := by
  unfold ensure
  split <;> simp_all

/-- Run a check on every element, stopping at the first failure. -/
def checkAll (f : α → Except ε Unit) : List α → Except ε Unit
  | [] => .ok ()
  | x :: xs => f x >>= fun _ => checkAll f xs

theorem checkAll_eq_ok {f : α → Except ε Unit} {xs : List α} {u : Unit} :
    checkAll f xs = .ok u ↔ ∀ x ∈ xs, f x = .ok () := by
  induction xs with
  | nil => simp [checkAll]
  | cons x xs ih =>
    rw [checkAll, bind_eq_ok, List.forall_mem_cons, ← ih]
    constructor
    · rintro ⟨⟨⟩, hx, hxs⟩
      exact ⟨hx, hxs⟩
    · rintro ⟨hx, hxs⟩
      exact ⟨(), hx, hxs⟩

/-! ## What a computation fails with -/

def FailsOnly (fine : ε → Prop) (x : Except ε α) : Prop := ∀ e, x = .error e → fine e

section FailsOnly

variable {fine : ε → Prop}

theorem failsOnly_ok (a : α) : FailsOnly fine (.ok a) := fun _ h => by cases h

theorem failsOnly_error {e : ε} (h : fine e) : FailsOnly fine (.error e : Except ε α) :=
  fun _ he => by
    cases he
    exact h

theorem FailsOnly.bind {x : Except ε α} {f : α → Except ε β} (hx : FailsOnly fine x)
    (hf : ∀ a, FailsOnly fine (f a)) : FailsOnly fine (x >>= f) := by
  cases x with
  | ok a => exact hf a
  | error e => exact failsOnly_error (hx e rfl)

theorem FailsOnly.ite {p : Prop} [Decidable p] {x y : Except ε α} (hx : FailsOnly fine x)
    (hy : FailsOnly fine y) : FailsOnly fine (if p then x else y) := by
  split
  · exact hx
  · exact hy

end FailsOnly

/-! ## The same computation under wider errors -/

def Lifts {η : Type} (lift : η → ε) (x : Except η α) (y : Except ε α) : Prop :=
  y = x.mapError lift

section Lifts

variable {η : Type} {lift : η → ε} {x : Except η α} {y : Except ε α}

theorem lifts_ok (a : α) : Lifts lift (.ok a : Except η α) (.ok a) := rfl

theorem lifts_error (e : η) : Lifts lift (.error e : Except η α) (.error (lift e)) := rfl

theorem Lifts.bind {f : α → Except η β} {g : α → Except ε β} (h : Lifts lift x y)
    (hf : ∀ a, x = .ok a → Lifts lift (f a) (g a)) : Lifts lift (x >>= f) (y >>= g) := by
  subst h
  cases x with
  | ok a => exact hf a rfl
  | error e => rfl

/-- Where the steps after use a part of what was found. -/
theorem Lifts.bind_part {γ : Type} {part : α → γ} {y : Except ε γ} {f : α → Except η β}
    {g : γ → Except ε β} (h : Lifts lift (x >>= fun a => .ok (part a)) y)
    (hf : ∀ a, x = .ok a → Lifts lift (f a) (g (part a))) : Lifts lift (x >>= f) (y >>= g) := by
  subst h
  cases x with
  | ok a => exact hf a rfl
  | error e => rfl

theorem Lifts.ite {p : Prop} [Decidable p] {x' : Except η α} {y' : Except ε α}
    (h : p → Lifts lift x y) (h' : ¬p → Lifts lift x' y') :
    Lifts lift (if p then x else x') (if p then y else y') := by
  split
  · exact h (by assumption)
  · exact h' (by assumption)

theorem lifts_ensure {c : Prop} [Decidable c] (e : η) :
    Lifts lift (ensure c e) (ensure c (lift e)) :=
  .ite (fun _ => lifts_ok ()) fun _ => lifts_error e

theorem Lifts.ok_iff (h : Lifts lift x y) {a : α} : y = .ok a ↔ x = .ok a := by
  subst h
  cases x with
  | ok b => simp [Except.mapError]
  | error e => simp [Except.mapError]

end Lifts

/-! ## Two computations that succeed together

They may fail with different errors. What one answers is what the other does, as seen
through `own`. -/

def Agree {η : Type} (own : β → α) (x : Except ε α) (y : Except η β) : Prop :=
  ∀ a, x = .ok a ↔ ∃ b, y = .ok b ∧ own b = a

section Agree

variable {η γ δ : Type} {own : β → α} {own' : δ → γ} {x : Except ε α} {y : Except η β}

theorem agree_ok {a : α} {b : β} (h : own b = a) :
    Agree own (.ok a : Except ε α) (.ok b : Except η β) := by
  intro a'
  constructor
  · rintro ⟨⟩
    exact ⟨b, rfl, h⟩
  · rintro ⟨_, ⟨⟩, rfl⟩
    rw [h]

theorem agree_error (e : ε) (e' : η) : Agree own (.error e : Except ε α) (.error e') := by
  intro a
  constructor
  · rintro ⟨⟩
  · rintro ⟨_, ⟨⟩, -⟩

theorem Agree.bind {f : α → Except ε γ} {g : β → Except η δ} (hx : Agree own x y)
    (hf : ∀ b, Agree own' (f (own b)) (g b)) : Agree own' (x >>= f) (y >>= g) := by
  cases hy : y with
  | ok b =>
    have hxok := (hx (own b)).mpr ⟨b, hy, rfl⟩
    rw [hxok]
    exact hf b
  | error e' =>
    cases hxe : x with
    | ok a =>
      obtain ⟨b, hb, -⟩ := (hx a).mp hxe
      cases hy.symm.trans hb
    | error e => exact agree_error e e'

/-- Both take the same step first. -/
theorem Agree.same {z : Except ε α} {f : α → Except ε γ} {g : α → Except ε δ}
    (hf : ∀ a, Agree own' (f a) (g a)) : Agree own' (z >>= f) (z >>= g) := by
  cases z with
  | ok a => exact hf a
  | error e => exact agree_error e e

theorem Agree.ite {p : Prop} [Decidable p] {x' : Except ε α} {y' : Except η β}
    (h : Agree own x y) (h' : Agree own x' y') :
    Agree own (if p then x else x') (if p then y else y') := by
  split
  · exact h
  · exact h'

end Agree

/-! ## The same computation on every element -/

def keepM (f : α → Except ε Bool) : List α → Except ε (List α)
  | [] => .ok []
  | a :: as => do
    let keep ← f a
    let rest ← keepM f as
    return if keep then a :: rest else rest

theorem keepM_ok {f : α → Except ε Bool} {g : α → Bool} {xs : List α}
    (h : ∀ a ∈ xs, f a = .ok (g a)) : keepM f xs = .ok (xs.filter g) := by
  induction xs with
  | nil => rfl
  | cons a as ih =>
    obtain ⟨ha, has⟩ := List.forall_mem_cons.mp h
    rw [keepM, ha, ok_bind, ih has, ok_bind, List.filter_cons]
    rfl

theorem findM?_ok {f : α → Except ε Bool} {g : α → Bool} {xs : List α}
    (h : ∀ a ∈ xs, f a = .ok (g a)) : xs.findM? f = .ok (xs.find? g) := by
  induction xs with
  | nil => rfl
  | cons a as ih =>
    obtain ⟨ha, has⟩ := List.forall_mem_cons.mp h
    rw [List.findM?, ha, ok_bind, List.find?_cons]
    cases g a with
    | true => rfl
    | false => exact ih has

theorem mapM_ok {f : α → Except ε β} {xs : List α} {ys : List β}
    (h : List.Forall₂ (fun x y => f x = .ok y) xs ys) : xs.mapM f = .ok ys := by
  induction h with
  | nil => rfl
  | cons hx _ ih => rw [List.mapM_cons, hx, ok_bind, ih, ok_bind, pure, Applicative.toPure]; rfl

theorem forall₂_of_mapM {f : α → Except ε β} {xs : List α} {ys : List β}
    (h : xs.mapM f = .ok ys) : List.Forall₂ (fun x y => f x = .ok y) xs ys := by
  induction xs generalizing ys with
  | nil =>
    cases h
    exact .nil
  | cons x xs ih =>
    rw [List.mapM_cons] at h
    obtain ⟨y, hy, h⟩ := bind_eq_ok.mp h
    obtain ⟨rest, hrest, h⟩ := bind_eq_ok.mp h
    cases h
    exact .cons hy (ih hrest)

/-- A loop that fails at its first element fails. -/
theorem mapM_error {f : α → Except ε β} {x : α} {xs : List α} {e : ε} (h : f x = .error e) :
    (x :: xs).mapM f = .error e := by
  rw [List.mapM_cons, h, error_bind]

end Adabt.Library
