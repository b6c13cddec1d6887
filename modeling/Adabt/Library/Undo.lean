import Adabt.Library.Lockstep
import Mathlib.Data.List.Basic
import Mathlib.Data.List.Induction
import Mathlib.Logic.Function.Conjugate
import Mathlib.Order.Lattice

/-! # Overwriting and undoing

What is left of steps that overwrite each other, of writes that are done again after
some of them were done before, and of effects that are taken back out of the middle. -/

set_option autoImplicit false

namespace Adabt.Library

/-! ## Folds of overwrites

A fold whose steps either set what an observer sees, whatever was there, or leave
it as it was. What the observer sees in the end is what the last step that
touched it wrote. -/

section Overwriting

variable {σ α β : Type} {step : σ → α → σ} {look : σ → β} {touches : α → Prop} {value : α → β}

structure Overwrites (step : σ → α → σ) (look : σ → β) (touches : α → Prop) (value : α → β) :
    Prop where
  hit : ∀ s a, touches a → look (step s a) = value a
  miss : ∀ s a, ¬ touches a → look (step s a) = look s

namespace Overwrites

theorem untouched (h : Overwrites step look touches value) {as : List α}
    (ha : ∀ a ∈ as, ¬ touches a) (s : σ) : look (as.foldl step s) = look s := by
  induction as generalizing s with
  | nil => rfl
  | cons a as ih =>
    rw [List.foldl_cons, ih fun b hb => ha b (List.mem_cons_of_mem a hb)]
    exact h.miss s a (ha a List.mem_cons_self)

theorem last (h : Overwrites step look touches value) {before after : List α} {a : α}
    (ha : touches a) (hafter : ∀ b ∈ after, ¬ touches b) (s : σ) :
    look ((before ++ a :: after).foldl step s) = value a := by
  rw [List.foldl_append, List.foldl_cons, h.untouched hafter, h.hit _ a ha]

/-- In ascending order the greatest step that touches decides. -/
theorem greatest [LinearOrder α] (h : Overwrites step look touches value) {as : List α}
    (hs : as.Pairwise (· < ·)) {a : α} (hmem : a ∈ as) (ha : touches a)
    (hmax : ∀ b ∈ as, touches b → b ≤ a) (s : σ) : look (as.foldl step s) = value a := by
  obtain ⟨before, after, rfl⟩ := List.append_of_mem hmem
  apply h.last ha
  intro b hb htouch
  have hlt : a < b := by
    have := (List.pairwise_append.mp hs).2.1
    exact (List.pairwise_cons.mp this).1 b hb
  exact absurd (hmax b (by simp [hb]) htouch) (not_le.mpr hlt)

/-- Among steps that write one value, the order does not matter. -/
theorem constant (h : Overwrites step look touches value) {as : List α} {v : β}
    (hv : ∀ a ∈ as, touches a → value a = v) (hex : ∃ a ∈ as, touches a) (s : σ) :
    look (as.foldl step s) = v := by
  induction as using List.reverseRecOn with
  | nil => simp at hex
  | append_singleton as a ih =>
    rw [List.foldl_append, List.foldl_cons, List.foldl_nil]
    by_cases ha : touches a
    · rw [h.hit _ a ha, hv a (by simp) ha]
    · rw [h.miss _ a ha]
      apply ih fun b hb => hv b (by simp [hb])
      obtain ⟨b, hb, htouch⟩ := hex
      rcases List.mem_append.mp hb with hb | hb
      · exact ⟨b, hb, htouch⟩
      · exact absurd (List.mem_singleton.mp hb ▸ htouch) ha

end Overwrites

end Overwriting

/-! ## Taking effects back out of the middle

Effects are done one after another, each with what takes it back. An effect
that is taken back, whatever came after it, leaves what the others do, when its
inverse commutes with everything that came later. -/

variable {σ : Type}

/-- What is done to a state, and what is meant to take it back. -/
structure Effect (σ : Type) where
  forward : σ → σ
  back : σ → σ

namespace Effect

/-- Taking the first back does not notice the second, nor that it is taken back. -/
structure Passes (e f : Effect σ) : Prop where
  forward : Function.Commute e.back f.forward
  back : Function.Commute e.back f.back

/-- The effects, done in order. -/
def replay (s : σ) (es : List (Effect σ)) : σ := es.foldl (fun s e => e.forward s) s

/-- Each effect can be taken back where it was done. -/
def Restoring : σ → List (Effect σ) → Prop
  | _, [] => True
  | s, e :: es => e.back (e.forward s) = s ∧ Restoring (e.forward s) es

@[simp] theorem replay_nil (s : σ) : replay s [] = s := rfl

@[simp] theorem replay_cons (s : σ) (e : Effect σ) (es : List (Effect σ)) :
    replay s (e :: es) = replay (e.forward s) es := rfl

theorem replay_append (s : σ) (es fs : List (Effect σ)) :
    replay s (es ++ fs) = replay (replay s es) fs := List.foldl_append

theorem restoring_append {s : σ} {es fs : List (Effect σ)} :
    Restoring s (es ++ fs) ↔ Restoring s es ∧ Restoring (replay s es) fs := by
  induction es generalizing s with
  | nil => exact (and_iff_right trivial).symm
  | cons e es ih => rw [List.cons_append, Restoring, Restoring, ih, replay_cons, and_assoc]

/-- What an effect passes may be done before it is taken back, or after. -/
theorem back_replay {e : Effect σ} {es : List (Effect σ)} (h : ∀ f ∈ es, e.Passes f) (s : σ) :
    e.back (replay s es) = replay (e.back s) es := by
  induction es generalizing s with
  | nil => rfl
  | cons f es ih =>
    rw [replay_cons, ih (fun g hg => h g (List.mem_cons_of_mem f hg)), replay_cons,
      (h f List.mem_cons_self).forward]

theorem restoring_back {e : Effect σ} {es : List (Effect σ)} (h : ∀ f ∈ es, e.Passes f) {s : σ}
    (hs : Restoring s es) : Restoring (e.back s) es := by
  induction es generalizing s with
  | nil => trivial
  | cons f es ih =>
    have hf := h f List.mem_cons_self
    have hnext := ih (fun g hg => h g (List.mem_cons_of_mem f hg)) hs.2
    rw [hf.forward] at hnext
    refine ⟨?_, hnext⟩
    rw [← hf.forward, ← hf.back, hs.1]

/-- An effect taken out of the middle leaves the others as if it had never been done. -/
theorem back_middle {s : σ} {before after : List (Effect σ)} {e : Effect σ}
    (hr : Restoring s (before ++ e :: after)) (h : ∀ f ∈ after, e.Passes f) :
    e.back (replay s (before ++ e :: after)) = replay s (before ++ after) ∧
      Restoring s (before ++ after) := by
  rw [restoring_append, Restoring] at hr
  obtain ⟨hbefore, hback, hafter⟩ := hr
  constructor
  · rw [replay_append, replay_cons, back_replay h, hback, replay_append]
  · have hrest := restoring_back h hafter
    rw [hback] at hrest
    exact restoring_append.mpr ⟨hbefore, hrest⟩

end Effect

/-! ## Doing writes again

Each write sets what is under one key, and what it sets and whether it fails rest on a
part of the state that no write changes. Writes that are carried out over a state in
which some of them were carried out before lead where they lead without that. -/

section Again

variable {ω ε σ κ ν ρ : Type} {f : ω → EStateM ε σ Unit} {key : ω → κ} {frame : σ → ρ}
  {find : σ → κ → ν} {ws : List ω} {s t : σ}

structure Keyed (f : ω → EStateM ε σ Unit) (key : ω → κ) (frame : σ → ρ) (find : σ → κ → ν) :
    Prop where
  ext : ∀ s t, frame s = frame t → (∀ k, find s k = find t k) → s = t
  framed : ∀ w s, frame (exec (f w) s) = frame s
  elsewhere : ∀ w s k, k ≠ key w → find (exec (f w) s) k = find s k
  again : ∀ w s s' t, frame s = frame t → f w s = .ok () s' →
    ∃ t', f w t = .ok () t' ∧ find t' (key w) = find s' (key w)

/-- The states differ at most under the keys of the writes. -/
structure OffKeys (key : ω → κ) (frame : σ → ρ) (find : σ → κ → ν) (ws : List ω) (s t : σ) :
    Prop where
  framed : frame s = frame t
  found : ∀ k, (∀ w ∈ ws, key w ≠ k) → find s k = find t k

namespace Keyed

theorem replay (h : Keyed f key frame find) (ho : OffKeys key frame find ws s t) {s' : σ}
    (hs : forEach f ws s = .ok () s') : forEach f ws t = .ok () s' := by
  induction ws generalizing s t with
  | nil =>
    obtain rfl : s = t := h.ext s t ho.framed fun k => ho.found k fun _ hw => by cases hw
    exact hs
  | cons w ws ih =>
    rw [forEach, bind_apply] at hs ⊢
    cases hw : f w s with
    | error e s1 =>
      rw [hw] at hs
      cases hs
    | ok u s1 =>
      rw [hw] at hs
      obtain ⟨t1, ht, hkey⟩ := h.again w s s1 t ho.framed hw
      rw [ht]
      have hs1 : exec (f w) s = s1 := exec_of_ok hw
      have ht1 : exec (f w) t = t1 := exec_of_ok ht
      refine ih ⟨?_, fun k hk => ?_⟩ hs
      · rw [← hs1, ← ht1, h.framed, h.framed, ho.framed]
      · by_cases heq : k = key w
        · rw [heq, hkey]
        · rw [← hs1, ← ht1, h.elsewhere w s k heq, h.elsewhere w t k heq]
          exact ho.found k (List.forall_mem_cons.mpr ⟨Ne.symm heq, hk⟩)

/-- Some of the writes, in any order, lead off the keys of all nowhere. -/
theorem some_of (h : Keyed f key frame find) {vs : List ω} (hvs : ∀ v ∈ vs, v ∈ ws)
    (ho : OffKeys key frame find ws s t) : OffKeys key frame find ws s (exec (forEach f vs) t) := by
  induction vs generalizing t with
  | nil => exact ho
  | cons v vs ih =>
    obtain ⟨hv, hrest⟩ := List.forall_mem_cons.mp hvs
    have hstep : OffKeys key frame find ws s (exec (f v) t) := by
      refine ⟨by rw [h.framed, ho.framed], fun k hk => ?_⟩
      rw [h.elsewhere v t k (Ne.symm (hk v hv)), ho.found k hk]
    have hnext := ih hrest hstep
    rw [forEach]
    cases hf : f v t with
    | ok u t1 => rwa [exec_bind_ok hf, ← exec_of_ok hf]
    | error e t1 => rwa [exec_bind_error hf, ← exec_of_error hf]

end Keyed

end Again

end Adabt.Library
