import Adabt.Opt.Reversal

/-! # What the controller does to its sink

A relation between states of the sink that every action keeps is kept by every
decision. Of the recorded plans a decision touches those of its own scope. -/

set_option autoImplicit false

namespace Adabt.Opt
open Adabt.Core Adabt.Library

variable {Ctx σ : Type} {R : σ → σ → Prop}

def OnSink (R : σ → σ → Prop) (s s' : Steered σ) : Prop := R s.sink s'.sink

theorem within_config (f : Steered σ → OptimizationController) [Std.Refl R] :
    Within (OnSink R) (modify fun s => { s with controller := f s } : SteerM σ PUnit) :=
  fun s => refl_of R s.sink

instance refl_onSink [Std.Refl R] : Std.Refl (OnSink R) := ⟨fun s => refl_of R s.sink⟩

instance trans_onSink [IsTrans σ R] : IsTrans (Steered σ) (OnSink R) :=
  ⟨fun s s' s'' h h' => trans_of R (a := s.sink) (b := s'.sink) (c := s''.sink) h h'⟩

variable [Std.Refl R] [IsTrans σ R] {P : ActionSink σ}

theorem within_applyActions_sink (hact : ∀ a, Within R (P.applyAction a)) (actions : List Action) :
    Within (OnSink R) (applyActions P actions) := by
  apply within_forEach
  intro a _ s
  have h := hact a s.sink
  unfold Post at h ⊢
  unfold onSink
  cases hrun : P.applyAction a s.sink with
  | ok _ _ =>
    rw [hrun] at h
    exact h
  | error _ _ =>
    rw [hrun] at h
    exact h

theorem canApplyAll_sink (hask : ∀ a s, R s (P.canApply a s).2) (actions : List Action) (s : σ) :
    R s (canApplyAll P actions s).2 := by
  induction actions generalizing s with
  | nil => exact refl_of R s
  | cons a actions ih =>
    have h := hask a s
    rw [canApplyAll]
    cases hrun : P.canApply a s with
    | mk possible s' =>
      rw [hrun] at h
      cases possible with
      | true => exact trans_of R h (ih s')
      | false => exact h

/-- What every action of the sink keeps, every decision keeps. -/
theorem within_applyDecision (hact : ∀ a, Within R (P.applyAction a))
    (hask : ∀ a s, R s (P.canApply a s).2) (env : ApplyEnv Ctx) (d : Decision) :
    Within (OnSink R) (applyDecision env P d) := by
  unfold applyDecision
  cases env.registry.get d.optimization with
  | none => exact within_pure _
  | some opt =>
    by_cases hd : d.action = .disable
    · simp only [if_pos hd]
      refine Within.bind ?_ fun _ => within_pure _
      unfold disable
      refine within_get_bind fun s => ?_
      generalize takeRecorded d.optimization d.scope s.controller.applied = taken
      simp only [post_bind]
      change Post _ (⟨⟨s.controller.config, taken.2⟩, s.sink⟩ : Steered σ) _ _
      exact (within_applyActions_sink hact _ _).mono (fun _ _ h => h) fun _ _ h => h
    · simp only [if_neg hd]
      refine within_get_bind fun s => ?_
      cases env.refusal s.controller.config d.optimization opt with
      | some verdict => exact refl_of R s.sink
      | none =>
        unfold enact
        refine Within.bind (R := OnSink R) (within_modifyGet fun s => ?_) (fun possible => ?_) s
        · exact canApplyAll_sink hask _ s.sink
        · cases possible with
          | false => exact within_pure _
          | true => exact (within_applyActions_sink hact _).bind fun _ =>
              (within_config _).bind fun _ => within_pure _

theorem takeRecorded_keeps {name scope : String} {applied : List (String × String × ChangePlan)}
    {p : String × String × ChangePlan} (hp : p ∈ applied) (hne : place p.1 p.2.1 ≠ place name scope) :
    p ∈ (takeRecorded name scope applied).2 := by
  by_cases h : place name scope ∈ applied.map fun p => place p.1 p.2.1
  · obtain ⟨before, plan, after, rfl, htaken⟩ := takeRecorded_of_mem h
    rw [htaken]
    rcases List.mem_append.mp hp with hmem | hmem
    · exact List.mem_append_left after hmem
    · rcases List.mem_cons.mp hmem with rfl | hmem
      · exact absurd rfl hne
      · exact List.mem_append_right before hmem
  · rw [takeRecorded_of_not_mem h]
    exact hp

/-- What stays recorded after a decision. -/
def Others (d : Decision) (s s' : Steered σ) : Prop :=
  ∀ p ∈ s.controller.applied, place p.1 p.2.1 ≠ place d.optimization d.scope →
    p ∈ s'.controller.applied

/-- Plans of other scopes stay recorded, and what was enabled is recorded. -/
theorem applyDecision_applied (env : ApplyEnv Ctx) (P : ActionSink σ) (d : Decision)
    (s : Steered σ) : Post (applyDecision env P d) s
      (fun verdict s' => Others d s s' ∧ (verdict = .applied → d.action ≠ .disable →
        ∃ plan, (d.optimization, d.scope, plan) ∈ s'.controller.applied))
      fun _ s' => Others d s s' := by
  unfold applyDecision
  cases hopt : env.registry.get d.optimization with
  | none => exact ⟨fun _ hp _ => hp, fun h => by cases h⟩
  | some opt =>
    by_cases hd : d.action = .disable
    · simp only [if_pos hd, post_bind]
      unfold disable
      simp only [post_bind, post_get, post_modify]
      have hkept : ∀ s' : Steered σ, SameController ⟨⟨s.controller.config,
          (takeRecorded d.optimization d.scope s.controller.applied).2⟩, s.sink⟩ s' →
          Others d s s' := by
        intro s' hs' p hp hne
        rw [hs']
        exact takeRecorded_keeps hp hne
      apply (within_applyActions P _ _).mono
      · intro _ s' hs'
        exact ⟨hkept s' hs', fun _ hne => absurd hd hne⟩
      · intro _ s' hs'
        exact hkept s' hs'
    · simp only [if_neg hd, post_bind, post_get]
      cases hrefusal : env.refusal s.controller.config d.optimization opt with
      | some verdict =>
        refine ⟨fun _ hp _ => hp, fun h => ?_⟩
        exact absurd (h ▸ hrefusal) (refusal_ne_applied env s.controller.config d.optimization opt)
      | none =>
        unfold enact
        simp only [post_bind, post_modifyGet]
        cases canApplyAll P (opt.planEnable env.ctx d.scope d.params).apply s.sink with
        | mk possible sink =>
          cases possible with
          | false => exact ⟨fun _ hp _ => hp, fun h => by cases h⟩
          | true =>
            simp only [Bool.not_true, Bool.false_eq_true, if_false, post_bind, post_modify]
            apply (within_applyActions P _ _).mono
            · intro _ s' hs'
              refine ⟨fun p hp _ => ?_, fun _ _ => ⟨_, List.mem_append_right _ List.mem_cons_self⟩⟩
              change p ∈ s'.controller.applied ++ _
              rw [hs']
              exact List.mem_append_left _ hp
            · intro _ s' hs' p hp _
              rw [hs']
              exact hp

end Adabt.Opt
