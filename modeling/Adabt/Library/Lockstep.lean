import Adabt.Library.Program

/-! # Programs in lockstep

Two programs from two states end alike when both end normally with the same value
or both fail, in states that are related again. Rules for `EStateM`: a program in
two states is taken apart like one program in one state. `Matched` leaves open how
values and errors are related, for programs of two different stores. -/

set_option autoImplicit false

namespace Adabt.Library

variable {ε σ τ α β : Type} {R : σ → τ → Prop}

/-- From these two states the programs end alike. -/
def Paired (R : σ → τ → Prop) (x : EStateM ε σ α) (s : σ) (y : EStateM ε τ α) (t : τ) : Prop :=
  match x s, y t with
  | .ok a s', .ok b t' => a = b ∧ R s' t'
  | .error _ s', .error _ t' => R s' t'
  | _, _ => False

theorem Paired.of_ok {x : EStateM ε σ α} {y : EStateM ε τ α} {s s' : σ} {t : τ} {a : α}
    (h : Paired R x s y t) (hx : x s = .ok a s') : ∃ t', y t = .ok a t' ∧ R s' t' := by
  unfold Paired at h
  rw [hx] at h
  cases hy : y t with
  | ok b t' =>
    rw [hy] at h
    obtain ⟨rfl, hr⟩ := h
    exact ⟨t', rfl, hr⟩
  | error e t' =>
    rw [hy] at h
    exact h.elim

theorem Paired.of_error {x : EStateM ε σ α} {y : EStateM ε τ α} {s s' : σ} {t : τ} {e : ε}
    (h : Paired R x s y t) (hx : x s = .error e s') : ∃ e' t', y t = .error e' t' ∧ R s' t' := by
  unfold Paired at h
  rw [hx] at h
  cases hy : y t with
  | ok b t' =>
    rw [hy] at h
    exact h.elim
  | error e' t' =>
    rw [hy] at h
    exact ⟨e', t', rfl, h⟩

theorem Paired.exec {x : EStateM ε σ α} {y : EStateM ε τ α} {s : σ} {t : τ}
    (h : Paired R x s y t) : R (exec x s) (exec y t) := by
  unfold Library.exec
  cases hx : x s with
  | ok a s' =>
    obtain ⟨t', ht, hr⟩ := h.of_ok hx
    rwa [ht]
  | error e s' =>
    obtain ⟨_, t', ht, hr⟩ := h.of_error hx
    rwa [ht]

/-- Both programs return, or both fail, by their postconditions. -/
theorem paired_of_returns {x : EStateM ε σ α} {y : EStateM ε τ α} {s : σ} {t : τ}
    {P : α → σ → Prop} {Q : α → τ → Prop} (hx : Returns x s P) (hy : Returns y t Q)
    (h : ∀ a s' b t', P a s' → Q b t' → a = b ∧ R s' t') : Paired R x s y t := by
  obtain ⟨a, s', hx, hp⟩ := hx.exists
  obtain ⟨b, t', hy, hq⟩ := hy.exists
  unfold Paired
  rw [hx, hy]
  exact h a s' b t' hp hq

theorem paired_of_fails {x : EStateM ε σ α} {y : EStateM ε τ α} {s : σ} {t : τ}
    {P : σ → Prop} {Q : τ → Prop} (hx : Post x s (fun _ _ => False) fun _ => P)
    (hy : Post y t (fun _ _ => False) fun _ => Q) (h : ∀ s' t', P s' → Q t' → R s' t') :
    Paired R x s y t := by
  unfold Post at hx hy
  unfold Paired
  cases hxs : x s with
  | ok a s' =>
    rw [hxs] at hx
    exact hx.elim
  | error e s' =>
    cases hyt : y t with
    | ok b t' =>
      rw [hyt] at hy
      exact hy.elim
    | error e' t' =>
      rw [hxs] at hx
      rw [hyt] at hy
      exact h s' t' hx hy

theorem bind_apply (x : EStateM ε σ α) (f : α → EStateM ε σ β) (s : σ) : (x >>= f) s =
    match x s with
    | .ok a s' => f a s'
    | .error e s' => .error e s' := by
  change EStateM.bind x f s = _
  unfold EStateM.bind
  cases x s <;> rfl

theorem Paired.bind {x : EStateM ε σ α} {y : EStateM ε τ α} {f : α → EStateM ε σ β}
    {g : α → EStateM ε τ β} {s : σ} {t : τ} (hx : Paired R x s y t)
    (hf : ∀ a s' t', R s' t' → Paired R (f a) s' (g a) t') : Paired R (x >>= f) s (y >>= g) t := by
  unfold Paired
  rw [bind_apply, bind_apply]
  cases hxs : x s with
  | ok a s' =>
    obtain ⟨t', ht, hr⟩ := hx.of_ok hxs
    rw [ht]
    exact hf a s' t' hr
  | error e s' =>
    obtain ⟨e', t', ht, hr⟩ := hx.of_error hxs
    rw [ht]
    exact hr

theorem Paired.pure {s : σ} {t : τ} (a : α) (h : R s t) :
    Paired R (pure a : EStateM ε σ α) s (pure a : EStateM ε τ α) t := ⟨rfl, h⟩

theorem Paired.attempt {s : σ} {t : τ} {r r' : Except ε α} (hr : r = r') (h : R s t) :
    Paired R (attempt r : EStateM ε σ α) s (attempt r' : EStateM ε τ α) t := by
  subst hr
  cases r with
  | ok a => exact ⟨rfl, h⟩
  | error e => exact h

/-- A computation that fails on both sides may fail with different errors. -/
theorem Paired.attempt_iff {s : σ} {t : τ} {r r' : Except ε Unit}
    (hr : r = .ok () ↔ r' = .ok ()) (h : R s t) :
    Paired R (Library.attempt r : EStateM ε σ Unit) s (Library.attempt r' : EStateM ε τ Unit) t := by
  cases r with
  | ok a =>
    rw [hr.mp rfl]
    exact ⟨rfl, h⟩
  | error e =>
    cases r' with
    | ok b => cases hr.mpr rfl
    | error e' => exact h

theorem Paired.get {s : σ} {t : τ} {f : σ → EStateM ε σ β} {g : τ → EStateM ε τ β}
    (h : Paired R (f s) s (g t) t) : Paired R (get >>= f) s (get >>= g) t := h

theorem Paired.modify {s : σ} {t : τ} {f : σ → σ} {g : τ → τ} (h : R (f s) (g t)) :
    Paired R (modify f : EStateM ε σ PUnit) s (modify g : EStateM ε τ PUnit) t := ⟨rfl, h⟩

theorem Paired.forEach {f : α → EStateM ε σ Unit} {g : α → EStateM ε τ Unit}
    (h : ∀ a s t, R s t → Paired R (f a) s (g a) t) (xs : List α) {s : σ} {t : τ} (hr : R s t) :
    Paired R (Library.forEach f xs) s (Library.forEach g xs) t := by
  induction xs generalizing s t with
  | nil => exact ⟨rfl, hr⟩
  | cons x xs ih => exact (h x s t hr).bind fun _ _ _ hr' => ih hr'

/-! ## Values and errors up to relations -/

section Matched

variable {φ : Type} {V : α → β → Prop} {F : ε → φ → Prop} {x : EStateM ε σ α} {y : EStateM φ τ β}
  {s : σ} {t : τ}

/-- Both programs return related values, or fail with related errors, in related states. -/
def Matched (V : α → β → Prop) (F : ε → φ → Prop) (R : σ → τ → Prop) (x : EStateM ε σ α) (s : σ)
    (y : EStateM φ τ β) (t : τ) : Prop :=
  Post x s (fun a s' => Post y t (fun b t' => V a b ∧ R s' t') fun _ _ => False)
    fun e s' => Post y t (fun _ _ => False) fun f t' => F e f ∧ R s' t'

/-- How the two programs end, each with its state. -/
theorem Matched.runs (h : Matched V F R x s y t) :
    (∃ a s' b t', x s = .ok a s' ∧ y t = .ok b t' ∧ V a b ∧ R s' t') ∨
    ∃ e s' f t', x s = .error e s' ∧ y t = .error f t' ∧ F e f ∧ R s' t' := by
  unfold Matched Post at h
  cases hx : x s with
  | ok a s' =>
    cases hy : y t with
    | ok b t' =>
      simp only [hx, hy] at h
      exact .inl ⟨a, s', b, t', rfl, rfl, h⟩
    | error f t' => simp [hx, hy] at h
  | error e s' =>
    cases hy : y t with
    | ok b t' => simp [hx, hy] at h
    | error f t' =>
      simp only [hx, hy] at h
      exact .inr ⟨e, s', f, t', rfl, rfl, h⟩

theorem Matched.cases (h : Matched V F R x s y t) :
    (∃ a b, result x s = .ok a ∧ result y t = .ok b ∧ V a b ∧
      R (Library.exec x s) (Library.exec y t)) ∨
    ∃ e f, result x s = .error e ∧ result y t = .error f ∧ F e f ∧
      R (Library.exec x s) (Library.exec y t) := by
  rcases h.runs with ⟨a, s', b, t', hs, ht, hv, hr⟩ | ⟨e, s', f, t', hs, ht, hf, hr⟩
  · refine .inl ⟨a, b, ?_, ?_, hv, ?_⟩
    · rw [result, hs]
    · rw [result, ht]
    · rwa [exec_of_ok hs, exec_of_ok ht]
  · refine .inr ⟨e, f, ?_, ?_, hf, ?_⟩
    · rw [result, hs]
    · rw [result, ht]
    · rwa [exec_of_error hs, exec_of_error ht]

theorem matched_of_ok {a : α} {b : β} {u : σ} {v : τ} (hx : x s = .ok a u) (hy : y t = .ok b v)
    (hv : V a b) (hr : R u v) : Matched V F R x s y t := by
  unfold Matched Post
  rw [hx, hy]
  exact ⟨hv, hr⟩

theorem matched_of_error {e : ε} {f : φ} {u : σ} {v : τ} (hx : x s = .error e u)
    (hy : y t = .error f v) (hf : F e f) (hr : R u v) : Matched V F R x s y t := by
  unfold Matched Post
  rw [hx, hy]
  exact ⟨hf, hr⟩

variable {γ δ : Type} {W : γ → δ → Prop}

theorem Matched.bind {f : α → EStateM ε σ γ} {g : β → EStateM φ τ δ} (hx : Matched V F R x s y t)
    (hf : ∀ a s' b t', x s = .ok a s' → V a b → R s' t' → Matched W F R (f a) s' (g b) t') :
    Matched W F R (x >>= f) s (y >>= g) t := by
  rcases hx.runs with ⟨a, s', b, t', hs, ht, hv, hr⟩ | ⟨e, s', k, t', hs, ht, hk, hr⟩
  · have hnext := hf a s' b t' hs hv hr
    unfold Matched Post at hnext ⊢
    rw [bind_apply, bind_apply, hs, ht]
    exact hnext
  · refine matched_of_error ?_ ?_ hk hr
    · rw [bind_apply, hs]
    · rw [bind_apply, ht]

theorem Matched.get {f : σ → EStateM ε σ γ} {g : τ → EStateM φ τ δ}
    (h : Matched W F R (f s) s (g t) t) : Matched W F R (get >>= f) s (get >>= g) t := h

theorem Matched.modify {f : σ → σ} {g : τ → τ} {k : PUnit → EStateM ε σ γ}
    {l : PUnit → EStateM φ τ δ} (h : Matched W F R (k ⟨⟩) (f s) (l ⟨⟩) (g t)) :
    Matched W F R (modify f >>= k) s (modify g >>= l) t := h

theorem Matched.attempt {a : α} {b : β} {f : α → EStateM ε σ γ} {g : β → EStateM φ τ δ}
    (h : Matched W F R (f a) s (g b) t) :
    Matched W F R (attempt (.ok a) >>= f) s (attempt (.ok b) >>= g) t := h

theorem Matched.exec (h : Matched V F R x s y t) : R (Library.exec x s) (Library.exec y t) := by
  rcases h.cases with ⟨_, _, _, _, _, hr⟩ | ⟨_, _, _, _, _, hr⟩
  · exact hr
  · exact hr

end Matched

/-! ## Machines in lockstep -/

section Machines

variable {ι ω ξ : Type}

/-- What a machine answers to commands, each from the state the one before left. -/
def answers (f : ι → σ → ω × σ) : σ → List ι → List ω
  | _, [] => []
  | s, c :: cs => (f c s).1 :: answers f (f c s).2 cs

def advance (f : ι → σ → ω × σ) (c : ι) (s : σ) : σ := (f c s).2

theorem answers_append (f : ι → σ → ω × σ) (s : σ) (cs ds : List ι) :
    answers f s (cs ++ ds) = answers f s cs ++ answers f (run (advance f) s cs) ds := by
  induction cs generalizing s with
  | nil => rfl
  | cons c cs ih => exact congrArg ((f c s).1 :: ·) (ih _)

/-- Machines that answer every guarded command alike, and stay related, answer every guarded
run alike. -/
theorem answers_related {f : ι → σ → ω × σ} {g : ι → τ → ξ × τ} {E : ω → ξ → Prop}
    {G : ι → σ → Prop}
    (hstep : ∀ c s t, R s t → G c s → E (f c s).1 (g c t).1 ∧ R (f c s).2 (g c t).2) {s : σ}
    {t : τ} (h : R s t) (cs : List ι) (hcs : Guarded (advance f) G s cs) :
    List.Forall₂ E (answers f s cs) (answers g t cs) ∧
      R (run (advance f) s cs) (run (advance g) t cs) := by
  induction cs generalizing s t with
  | nil => exact ⟨.nil, h⟩
  | cons c cs ih =>
    have hc := hstep c s t h hcs.1
    obtain ⟨hrest, hend⟩ := ih hc.2 hcs.2
    exact ⟨.cons hc.1 hrest, hend⟩

end Machines

end Adabt.Library
