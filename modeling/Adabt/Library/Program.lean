import Mathlib.Data.List.Basic
import Mathlib.Data.Nat.Notation
import Mathlib.Order.Defs.Unbundled

/-! # Programs over a state

Rules for `EStateM`, whose errors keep the state they were raised in. `Post`
gives one postcondition for a normal end and one for an error. A run carries
out a list of commands and goes on after one that failed, and an invariant of
every guarded command is an invariant of every guarded run. -/

set_option autoImplicit false

namespace Adabt.Library

variable {ε σ α β ι : Type}

/-- Started in `s`, the program ends in a state with `Q`, or fails in one with `R`. -/
def Post (x : EStateM ε σ α) (s : σ) (Q : α → σ → Prop) (R : ε → σ → Prop) : Prop :=
  match x s with
  | .ok a s' => Q a s'
  | .error e s' => R e s'

/-- The program ends normally, in a state with `Q`. -/
abbrev Returns (x : EStateM ε σ α) (s : σ) (Q : α → σ → Prop) : Prop :=
  Post x s Q fun _ _ => False

@[simp] theorem post_pure (a : α) (s : σ) (Q : α → σ → Prop) (R : ε → σ → Prop) :
    Post (pure a) s Q R ↔ Q a s := Iff.rfl

@[simp] theorem post_get (s : σ) (Q : σ → σ → Prop) (R : ε → σ → Prop) :
    Post (get : EStateM ε σ σ) s Q R ↔ Q s s := Iff.rfl

@[simp] theorem post_modify (f : σ → σ) (s : σ) (Q : PUnit → σ → Prop) (R : ε → σ → Prop) :
    Post (modify f : EStateM ε σ PUnit) s Q R ↔ Q ⟨⟩ (f s) := Iff.rfl

@[simp] theorem post_set (s' s : σ) (Q : PUnit → σ → Prop) (R : ε → σ → Prop) :
    Post (set s' : EStateM ε σ PUnit) s Q R ↔ Q ⟨⟩ s' := Iff.rfl

@[simp] theorem post_modifyGet (f : σ → α × σ) (s : σ) (Q : α → σ → Prop) (R : ε → σ → Prop) :
    Post (modifyGet f : EStateM ε σ α) s Q R ↔ Q (f s).1 (f s).2 := Iff.rfl

@[simp] theorem post_throw (e : ε) (s : σ) (Q : α → σ → Prop) (R : ε → σ → Prop) :
    Post (throw e : EStateM ε σ α) s Q R ↔ R e s := Iff.rfl

@[simp] theorem post_bind (x : EStateM ε σ α) (f : α → EStateM ε σ β) (s : σ)
    (Q : β → σ → Prop) (R : ε → σ → Prop) :
    Post (x >>= f) s Q R ↔ Post x s (fun a s' => Post (f a) s' Q R) R := by
  change Post (EStateM.bind x f) s Q R ↔ _
  unfold Post EStateM.bind
  cases x s with
  | ok a s' => rfl
  | error e s' => rfl

theorem Post.mono {x : EStateM ε σ α} {s : σ} {Q Q' : α → σ → Prop} {R R' : ε → σ → Prop}
    (h : Post x s Q R) (hQ : ∀ a s', Q a s' → Q' a s') (hR : ∀ e s', R e s' → R' e s') :
    Post x s Q' R' := by
  unfold Post at h ⊢
  cases hx : x s with
  | ok a s' => exact hQ a s' (by simpa [hx] using h)
  | error e s' => exact hR e s' (by simpa [hx] using h)

theorem Returns.mono {x : EStateM ε σ α} {s : σ} {Q : α → σ → Prop} {Q' : α → σ → Prop}
    {R : ε → σ → Prop} (h : Returns x s Q) (hQ : ∀ a s', Q a s' → Q' a s') : Post x s Q' R :=
  Post.mono h hQ fun _ _ hF => hF.elim

theorem Returns.exists {x : EStateM ε σ α} {s : σ} {Q : α → σ → Prop} (h : Returns x s Q) :
    ∃ a s', x s = .ok a s' ∧ Q a s' := by
  unfold Returns Post at h
  cases hx : x s with
  | ok a s' => exact ⟨a, s', rfl, by simpa [hx] using h⟩
  | error e s' => simp [hx] at h

theorem Post.of_ok {x : EStateM ε σ α} {s s' : σ} {a : α} {Q : α → σ → Prop}
    {R : ε → σ → Prop} (h : Post x s Q R) (hx : x s = .ok a s') : Q a s' := by
  simpa [Post, hx] using h

theorem Post.of_error {x : EStateM ε σ α} {s s' : σ} {e : ε} {Q : α → σ → Prop}
    {R : ε → σ → Prop} (h : Post x s Q R) (hx : x s = .error e s') : R e s' := by
  simpa [Post, hx] using h

theorem post_of_ok {x : EStateM ε σ α} {s s' : σ} {a : α} {Q : α → σ → Prop}
    {R : ε → σ → Prop} (hx : x s = .ok a s') : Post x s Q R ↔ Q a s' := by
  unfold Post
  rw [hx]

/-- Two programs that promise the same end the same way. -/
theorem eq_of_post {x y : EStateM ε σ α} {s : σ}
    (h : ∀ Q R, Post x s Q R ↔ Post y s Q R) : x s = y s := by
  have hx := h (fun a s' => y s = .ok a s') fun e s' => y s = .error e s'
  unfold Post at hx
  cases hy : y s with
  | ok a s' =>
    simp only [hy] at hx
    cases hxs : x s with
    | ok b t => simpa [hxs, eq_comm] using hx
    | error e t => simp [hxs] at hx
  | error e s' =>
    simp only [hy] at hx
    cases hxs : x s with
    | ok b t => simp [hxs] at hx
    | error e t => simpa [hxs, eq_comm] using hx

/-- A program that ends normally ends as its postcondition says. -/
theorem Returns.of_post {x : EStateM ε σ α} {s : σ} {P Q : α → σ → Prop} {R : ε → σ → Prop}
    (h : Returns x s P) (hx : Post x s Q R) : Returns x s Q := by
  obtain ⟨a, s', he, -⟩ := h.exists
  unfold Returns Post
  rw [he]
  exact hx.of_ok he

theorem Post.and {x : EStateM ε σ α} {s : σ} {Q Q' : α → σ → Prop} {R R' : ε → σ → Prop}
    (h : Post x s Q R) (h' : Post x s Q' R') :
    Post x s (fun a s' => Q a s' ∧ Q' a s') fun e s' => R e s' ∧ R' e s' := by
  unfold Post at h h' ⊢
  cases hx : x s with
  | ok a s' => exact ⟨by simpa [hx] using h, by simpa [hx] using h'⟩
  | error e s' => exact ⟨by simpa [hx] using h, by simpa [hx] using h'⟩

/-- Raise the error of a failed computation, or go on with its value. -/
def attempt : Except ε α → EStateM ε σ α
  | .ok a => pure a
  | .error e => throw e

@[simp] theorem post_attempt_ok (a : α) (s : σ) (Q : α → σ → Prop) (R : ε → σ → Prop) :
    Post (attempt (.ok a)) s Q R ↔ Q a s := Iff.rfl

@[simp] theorem post_attempt_error (e : ε) (s : σ) (Q : α → σ → Prop) (R : ε → σ → Prop) :
    Post (attempt (.error e)) s Q R ↔ R e s := Iff.rfl

theorem post_attempt {r : Except ε α} {s : σ} {Q : α → σ → Prop} {R : ε → σ → Prop}
    (hok : ∀ a, r = .ok a → Q a s) (herr : ∀ e, r = .error e → R e s) : Post (attempt r) s Q R := by
  cases r with
  | ok a => exact hok a rfl
  | error e => exact herr e rfl

/-- Carry out a program for each element, in order. -/
def forEach (f : α → EStateM ε σ Unit) : List α → EStateM ε σ Unit
  | [] => pure ()
  | x :: xs => do
    f x
    forEach f xs

/-- A loop keeps whatever invariant of the elements still to come each step keeps. -/
theorem post_forEach {f : α → EStateM ε σ Unit} {I : List α → σ → Prop} {R : ε → σ → Prop}
    (hstep : ∀ x xs s, I (x :: xs) s → Post (f x) s (fun _ s' => I xs s') R) :
    ∀ (xs : List α) (s : σ), I xs s → Post (forEach f xs) s (fun _ s' => I [] s') R := by
  intro xs
  induction xs with
  | nil => intro s h; exact h
  | cons x xs ih =>
    intro s h
    rw [forEach, post_bind]
    exact (hstep x xs s h).mono (fun _ s' h' => ih s' h') fun _ _ he => he

/-- A loop of changes to the state is one change. -/
theorem post_forEach_modify (f : α → σ → σ) (xs : List α) (s : σ) (Q : Unit → σ → Prop)
    (R : ε → σ → Prop) :
    Post (forEach (fun x => modify (f x) : α → EStateM ε σ Unit) xs) s Q R ↔
      Q () (xs.foldl (fun s x => f x s) s) := by
  induction xs generalizing s with
  | nil => exact Iff.rfl
  | cons x xs ih =>
    rw [forEach, post_bind, post_modify]
    exact ih _

/-- The state a program leaves behind, whether it ended normally or not. -/
def exec (x : EStateM ε σ α) (s : σ) : σ :=
  match x s with
  | .ok _ s' => s'
  | .error _ s' => s'

theorem Post.exec {x : EStateM ε σ α} {s : σ} {I : σ → Prop}
    (h : Post x s (fun _ => I) fun _ => I) : I (exec x s) := by
  unfold Post at h
  unfold Library.exec
  cases hx : x s with
  | ok a s' => simpa [hx] using h
  | error e s' => simpa [hx] using h

theorem exec_of_ok {x : EStateM ε σ α} {s s' : σ} {a : α} (h : x s = .ok a s') :
    exec x s = s' := by
  unfold exec
  rw [h]

theorem exec_of_error {x : EStateM ε σ α} {s s' : σ} {e : ε} (h : x s = .error e s') :
    exec x s = s' := by
  unfold exec
  rw [h]

theorem exec_bind_ok {x : EStateM ε σ α} {f : α → EStateM ε σ β} {s s' : σ} {a : α}
    (h : x s = .ok a s') : exec (x >>= f) s = exec (f a) s' := by
  have hbind : (x >>= f) s = f a s' := by
    change EStateM.bind x f s = _
    unfold EStateM.bind
    rw [h]
  unfold exec
  rw [hbind]

theorem exec_bind_error {x : EStateM ε σ α} {f : α → EStateM ε σ β} {s s' : σ} {e : ε}
    (h : x s = .error e s') : exec (x >>= f) s = s' := by
  have hbind : (x >>= f) s = .error e s' := by
    change EStateM.bind x f s = _
    unfold EStateM.bind
    rw [h]
  exact exec_of_error hbind

/-- Doing something with the value afterwards leaves the state where it is. -/
theorem exec_bind_pure (x : EStateM ε σ α) (g : α → β) (s : σ) :
    exec (x >>= fun a => pure (g a)) s = exec x s := by
  cases hx : x s with
  | ok a s' => rw [exec_bind_ok hx, exec_of_ok hx]; rfl
  | error e s' => rw [exec_bind_error hx, exec_of_error hx]

/-- What a program answers, whatever state it leaves. -/
def result (x : EStateM ε σ α) (s : σ) : Except ε α :=
  match x s with
  | .ok a _ => .ok a
  | .error e _ => .error e

theorem Returns.result {x : EStateM ε σ α} {s : σ} {Q : α → σ → Prop} (h : Returns x s Q) :
    ∃ a, result x s = .ok a ∧ Q a (exec x s) := by
  obtain ⟨a, s', hx, hq⟩ := h.exists
  refine ⟨a, ?_, by rwa [exec_of_ok hx]⟩
  unfold Library.result
  rw [hx]

theorem result_of_fails {x : EStateM ε σ α} {s : σ} {R : ε → σ → Prop}
    (h : Post x s (fun _ _ => False) R) : ∃ e, result x s = .error e ∧ R e (exec x s) := by
  unfold Post at h
  unfold result exec
  cases hx : x s with
  | ok a s' => simp [hx] at h
  | error e s' => exact ⟨e, rfl, by simpa [hx] using h⟩

/-- All the values in order, or the first error. -/
def gather : List (Except ε α) → Except ε (List α)
  | [] => .ok []
  | r :: rs => do
    let a ← r
    return a :: (← gather rs)

theorem gather_ok {l : List (Except ε α)} (h : ∀ r ∈ l, ∃ a, r = .ok a) :
    ∃ as, gather l = .ok as := by
  induction l with
  | nil => exact ⟨[], rfl⟩
  | cons r rs ih =>
    obtain ⟨a, rfl⟩ := h r List.mem_cons_self
    obtain ⟨as, has⟩ := ih fun r hr => h r (List.mem_cons_of_mem _ hr)
    refine ⟨a :: as, ?_⟩
    rw [gather, has]
    rfl

/-- Where each member is a value that is related to another. -/
theorem gather_rel {R : α → β → Prop} {l : List (Except ε α)} {bs : List β}
    (h : List.Forall₂ (fun r b => ∃ a, r = .ok a ∧ R a b) l bs) :
    ∃ as, gather l = .ok as ∧ List.Forall₂ R as bs := by
  induction h with
  | nil => exact ⟨[], rfl, .nil⟩
  | cons hab _ ih =>
    obtain ⟨a, rfl, hr⟩ := hab
    obtain ⟨as, has, hrest⟩ := ih
    refine ⟨a :: as, ?_, .cons hr hrest⟩
    rw [gather, has]
    rfl

theorem gather_error {r : Except ε α} {rs : List (Except ε α)} {e : ε} (h : r = .error e) :
    gather (r :: rs) = .error e := by
  rw [gather, h]
  rfl

/-! ## Programs within a relation -/

/-- However it ends, the program ends in a state that the relation allows from the one it
started in. -/
def Within (R : σ → σ → Prop) (x : EStateM ε σ α) : Prop :=
  ∀ s, Post x s (fun _ => R s) fun _ => R s

section Within

variable {R : σ → σ → Prop}

theorem Within.mono {x : EStateM ε σ α} {R' : σ → σ → Prop} (hx : Within R x)
    (h : ∀ s s', R s s' → R' s s') : Within R' x :=
  fun s => (hx s).mono (fun _ s' => h s s') fun _ s' => h s s'

theorem Within.exec {x : EStateM ε σ α} (hx : Within R x) (s : σ) : R s (exec x s) :=
  Post.exec (hx s)

theorem within_modify {f : σ → σ} (h : ∀ s, R s (f s)) :
    Within R (modify f : EStateM ε σ PUnit) := h

theorem within_modifyGet {f : σ → α × σ} (h : ∀ s, R s (f s).2) :
    Within R (modifyGet f : EStateM ε σ α) := h

variable [Std.Refl R]

theorem within_pure (a : α) : Within R (pure a : EStateM ε σ α) := fun s => refl_of R s

theorem within_throw (e : ε) : Within R (throw e : EStateM ε σ α) := fun s => refl_of R s

theorem within_get : Within R (get : EStateM ε σ σ) := fun s => refl_of R s

theorem within_attempt (r : Except ε α) : Within R (attempt r : EStateM ε σ α) := by
  cases r with
  | ok a => exact within_pure a
  | error e => exact within_throw e

variable [IsTrans σ R]

/-- What comes next may go on from wherever the first part ended. -/
theorem Within.bind {x : EStateM ε σ α} {f : α → EStateM ε σ β} (hx : Within R x)
    (hf : ∀ a, Within R (f a)) : Within R (x >>= f) := by
  intro s
  rw [post_bind]
  exact (hx s).mono (fun a s' h => (hf a s').mono (fun _ _ => trans_of R h) fun _ _ => trans_of R h)
    fun _ _ h => h

theorem within_get_bind {f : σ → EStateM ε σ β}
    (hf : ∀ s, Post (f s) s (fun _ => R s) fun _ => R s) : Within R (get >>= f) := by
  intro s
  rw [post_bind, post_get]
  exact hf s

theorem within_forEach {f : α → EStateM ε σ Unit} {xs : List α} (hf : ∀ a ∈ xs, Within R (f a)) :
    Within R (forEach f xs) := by
  induction xs with
  | nil => exact within_pure ()
  | cons x xs ih =>
    exact (hf x List.mem_cons_self).bind fun _ => ih fun a ha => hf a (List.mem_cons_of_mem _ ha)

end Within

/-- Keeping a property, as a relation between a state and a later one. -/
def Preserves (I : σ → Prop) (s s' : σ) : Prop := I s → I s'

instance (I : σ → Prop) : Std.Refl (Preserves I) := ⟨fun _ h => h⟩

instance (I : σ → Prop) : IsTrans σ (Preserves I) := ⟨fun _ _ _ h h' hs => h' (h hs)⟩

theorem within_preserves {x : EStateM ε σ α} {I : σ → Prop}
    (h : ∀ s, I s → Post x s (fun _ => I) fun _ => I) : Within (Preserves I) x := by
  intro s
  by_cases hs : I s
  · exact (h s hs).mono (fun _ _ hi _ => hi) fun _ _ hi _ => hi
  · unfold Post
    cases x s with
    | ok a s' => exact fun hi => absurd hi hs
    | error e s' => exact fun hi => absurd hi hs

theorem Within.post {x : EStateM ε σ α} {I : σ → Prop} (hx : Within (Preserves I) x) {s : σ}
    (hs : I s) : Post x s (fun _ => I) fun _ => I :=
  (hx s).mono (fun _ _ hi => hi hs) fun _ _ hi => hi hs

/-- Carry out commands in order, each from the state the one before left. -/
def run (step : ι → σ → σ) : σ → List ι → σ
  | s, [] => s
  | s, c :: cs => run step (step c s) cs

/-- Every command of a run meets its guard in the state it starts from. -/
def Guarded (step : ι → σ → σ) (G : ι → σ → Prop) : σ → List ι → Prop
  | _, [] => True
  | s, c :: cs => G c s ∧ Guarded step G (step c s) cs

def decideGuarded (step : ι → σ → σ) (G : ι → σ → Prop) [(c : ι) → (s : σ) → Decidable (G c s)] :
    (s : σ) → (cs : List ι) → Decidable (Guarded step G s cs)
  | _, [] => isTrue trivial
  | s, c :: cs =>
    have := decideGuarded step G (step c s) cs
    inferInstanceAs (Decidable (_ ∧ _))

instance (step : ι → σ → σ) (G : ι → σ → Prop) [(c : ι) → (s : σ) → Decidable (G c s)] (s : σ)
    (cs : List ι) : Decidable (Guarded step G s cs) := decideGuarded step G s cs

@[simp] theorem run_nil (step : ι → σ → σ) (s : σ) : run step s [] = s := rfl

@[simp] theorem run_cons (step : ι → σ → σ) (s : σ) (c : ι) (cs : List ι) :
    run step s (c :: cs) = run step (step c s) cs := rfl

theorem run_append (step : ι → σ → σ) (s : σ) (cs ds : List ι) :
    run step s (cs ++ ds) = run step (run step s cs) ds := by
  induction cs generalizing s with
  | nil => rfl
  | cons c cs ih => exact ih _

/-- A command in the middle of a guarded run meets its guard where the run has come to. -/
theorem Guarded.split {step : ι → σ → σ} {G : ι → σ → Prop} {s : σ} {before after : List ι} {c : ι}
    (h : Guarded step G s (before ++ c :: after)) :
    Guarded step G s before ∧ G c (run step s before) := by
  induction before generalizing s with
  | nil => exact ⟨trivial, h.1⟩
  | cons d before ih =>
    obtain ⟨hbefore, hc⟩ := ih h.2
    exact ⟨⟨h.1, hbefore⟩, hc⟩

theorem guarded_of_forall {step : ι → σ → σ} {G : ι → σ → Prop} (h : ∀ c s, G c s) (s : σ)
    (cs : List ι) : Guarded step G s cs := by
  induction cs generalizing s with
  | nil => trivial
  | cons c cs ih => exact ⟨h c s, ih _⟩

theorem guarded_append {step : ι → σ → σ} {G : ι → σ → Prop} {s : σ} {cs ds : List ι} :
    Guarded step G s (cs ++ ds) ↔ Guarded step G s cs ∧ Guarded step G (run step s cs) ds := by
  induction cs generalizing s with
  | nil => exact (and_iff_right trivial).symm
  | cons c cs ih => rw [List.cons_append, Guarded, Guarded, ih, run_cons, and_assoc]

/-- What every guarded command keeps, every guarded run keeps. -/
theorem run_invariant {step : ι → σ → σ} {G : ι → σ → Prop} {I : σ → Prop}
    (hstep : ∀ c s, I s → G c s → I (step c s)) {s : σ} {cs : List ι} (hs : I s)
    (hg : Guarded step G s cs) : I (run step s cs) := by
  induction cs generalizing s with
  | nil => exact hs
  | cons c cs ih => exact ih (hstep c s hs hg.1) hg.2

/-- What every command keeps, every run keeps. -/
theorem run_keeps {step : ι → σ → σ} {I : σ → Prop} (hstep : ∀ c s, I s → I (step c s)) {s : σ}
    (cs : List ι) (hs : I s) : I (run step s cs) := by
  induction cs generalizing s with
  | nil => exact hs
  | cons c cs ih => exact ih (hstep c s hs)

end Adabt.Library
