import Adabt.Library.Undo
import Adabt.Opt.Legality

/-! # Taking an optimization back

A recorded plan carries its inverse from before it was applied. Over whole runs
the sink is what the enabled scopes did to it, as long as every inverse restores
what its plan found, no later plan touches the same setting and no plan stops
half way. -/

set_option autoImplicit false

namespace Adabt.Opt
open Adabt.Core Adabt.Library

variable {Ctx σ : Type}

namespace ActionSink

/-- Carry the actions out, as far as they go. -/
def carry (P : ActionSink σ) (actions : List Action) (s : σ) : σ :=
  exec (forEach P.applyAction actions) s

def effect (P : ActionSink σ) (plan : ChangePlan) : Effect σ :=
  ⟨P.carry plan.apply, P.carry plan.revert⟩

def Succeeds (P : ActionSink σ) (actions : List Action) (s : σ) : Prop :=
  Returns (forEach P.applyAction actions) s fun _ _ => True

/-- The first action fails and leaves the sink alone. -/
def FailsFirst (P : ActionSink σ) (actions : List Action) (s : σ) : Prop :=
  ∃ a rest e, actions = a :: rest ∧ P.applyAction a s = .error e s

end ActionSink

theorem applyActions_eq (P : ActionSink σ) (actions : List Action) :
    applyActions P actions = onSink (forEach P.applyAction actions) := by
  induction actions with
  | nil => rfl
  | cons a actions ih =>
    funext s
    rw [applyActions, forEach, ← applyActions, ih]
    change EStateM.bind (onSink (P.applyAction a)) _ s =
      onSink (EStateM.bind (P.applyAction a) fun _ => forEach P.applyAction actions) s
    unfold EStateM.bind onSink
    dsimp only
    cases P.applyAction a s.sink with
    | ok _ sink => rfl
    | error e sink => rfl

theorem applyActions_of_succeeds {P : ActionSink σ} {actions : List Action} {s : Steered σ}
    (h : P.Succeeds actions s.sink) :
    applyActions P actions s = .ok () { s with sink := P.carry actions s.sink } := by
  obtain ⟨_, sink, hsink, -⟩ := h.exists
  rw [applyActions_eq]
  unfold onSink ActionSink.carry exec
  rw [hsink]

theorem applyActions_of_failsFirst {P : ActionSink σ} {actions : List Action} {s : Steered σ}
    (h : P.FailsFirst actions s.sink) : ∃ e, applyActions P actions s = .error e s := by
  obtain ⟨a, rest, e, rfl, ha⟩ := h
  refine ⟨e, ?_⟩
  rw [applyActions_eq, forEach]
  change onSink (EStateM.bind (P.applyAction a) fun _ => forEach P.applyAction rest) s = _
  unfold onSink EStateM.bind
  rw [ha]

/-! ## What the configuration holds -/

theorem refusal_ne_applied (env : ApplyEnv Ctx) (c : OptimizationConfig) (name : String)
    (opt : Optimization Ctx) : env.refusal c name opt ≠ some .applied := by
  rw [ApplyEnv.refusal]
  split_ifs <;> simp

/-- A decision changes the configuration when it is applied, and only then. -/
theorem applyDecision_config (env : ApplyEnv Ctx) (P : ActionSink σ) (d : Decision)
    (s : Steered σ) : Post (applyDecision env P d) s
      (fun verdict s' => s'.controller.config = if verdict = .applied
        then s.controller.config.carryOut d else s.controller.config)
      fun _ s' => s'.controller.config = s.controller.config := by
  unfold applyDecision
  cases hopt : env.registry.get d.optimization with
  | none => exact (if_neg (by decide)).symm
  | some opt =>
    by_cases hd : d.action = .disable
    · simp only [if_pos hd, post_bind]
      unfold disable
      simp only [post_bind, post_get, post_modify]
      generalize takeRecorded d.optimization d.scope s.controller.applied = taken
      apply (within_applyActions P _ _).mono
      · intro _ s' hs'
        change s'.controller.config.disable d.optimization d.scope = _
        rw [if_pos rfl, hs', OptimizationConfig.carryOut, hd]
      · intro _ s' hs'
        rw [hs']
    · simp only [if_neg hd, post_bind, post_get]
      cases hrefusal : env.refusal s.controller.config d.optimization opt with
      | some verdict =>
        refine (if_neg fun h => ?_).symm
        exact refusal_ne_applied env s.controller.config d.optimization opt (h ▸ hrefusal)
      | none =>
        unfold enact
        simp only [post_bind, post_modifyGet]
        cases canApplyAll P (opt.planEnable env.ctx d.scope d.params).apply s.sink with
        | mk possible sink =>
          cases possible with
          | false => exact (if_neg (by decide)).symm
          | true =>
            simp only [Bool.not_true, Bool.false_eq_true, if_false, post_bind, post_modify]
            apply (within_applyActions P _ _).mono
            · intro _ s' hs'
              change s'.controller.config.enable d.optimization d.scope d.params = _
              rw [if_pos rfl, hs', OptimizationConfig.carryOut]
              cases ha : d.action with
              | disable => exact absurd ha hd
              | enable => rfl
              | retune => rfl
            · intro _ s' hs'
              rw [hs']

section Runs

variable (r : Registry Ctx) (policy : Policy) (P : ActionSink σ)

/-- The decision a turn carries out, if it does. -/
def carriedBy : Turn Ctx → Course Ctx σ → List Decision
  | .batch _, _ => []
  | .decision d, s =>
    match applyDecision ⟨r, policy, s.ctx⟩ P d s.steered with
    | .ok .applied _ => [d]
    | _ => []

/-- The decisions that were applied, in order. -/
def carriedOut : Course Ctx σ → List (Turn Ctx) → List Decision
  | _, [] => []
  | s, t :: ts => carriedBy r policy P t s ++ carriedOut (turn r policy P t s) ts

theorem turn_config (t : Turn Ctx) (s : Course Ctx σ) : (turn r policy P t s).config =
    (carriedBy r policy P t s).foldl OptimizationConfig.carryOut s.config := by
  cases t with
  | batch ctx => rfl
  | decision d =>
    have hpost := applyDecision_config ⟨r, policy, s.ctx⟩ P d s.steered
    simp only [turn, carriedBy, Course.config, exec]
    cases hd : applyDecision ⟨r, policy, s.ctx⟩ P d s.steered with
    | error e s' =>
      exact hpost.of_error hd
    | ok verdict s' =>
      have hconfig := hpost.of_ok hd
      cases verdict with
      | applied => exact hconfig
      | _ => exact hconfig

theorem run_config (turns : List (Turn Ctx)) (s : Course Ctx σ) :
    (run (turn r policy P) s turns).config =
      (carriedOut r policy P s turns).foldl OptimizationConfig.carryOut s.config := by
  induction turns generalizing s with
  | nil => rfl
  | cons t turns ih => rw [run_cons, ih, turn_config, carriedOut, List.foldl_append]

end Runs

/-! ## What the sink holds -/

/-- Where the recorded plans stand. -/
def standing (s : Steered σ) : List Place := s.controller.applied.map fun p => place p.1 p.2.1

def effects (P : ActionSink σ) (s : Steered σ) : List (Effect σ) :=
  s.controller.applied.map fun p => P.effect p.2.2

/-- The sink is what the recorded plans did to it, and they stand where the configuration says. -/
structure Balanced (P : ActionSink σ) (sink : σ) (s : Steered σ) : Prop where
  kept : s.sink = Effect.replay sink (effects P s)
  once : (standing s).Nodup
  exact : ∀ name scope, s.controller.config.params name scope ≠ none ↔
    place name scope ∈ standing s

/-- What later reversals rest on. -/
structure Reversible (P : ActionSink σ) (sink : σ) (s : Steered σ) : Prop extends
    Balanced P sink s where
  restoring : Effect.Restoring sink (effects P s)
  passes : (effects P s).Pairwise Effect.Passes

/-- A plan that may be recorded: it is carried out or leaves the sink alone, its scope is not
enabled yet, its inverse restores what it finds, and it touches nothing of the others. -/
def Recordable (P : ActionSink σ) (d : Decision) (plan : ChangePlan) (s : Steered σ) : Prop :=
  P.FailsFirst plan.apply s.sink ∨ (P.Succeeds plan.apply s.sink ∧
    s.controller.config.params d.optimization d.scope = none ∧
    P.carry plan.revert (P.carry plan.apply s.sink) = s.sink ∧
    ∀ p ∈ s.controller.applied, (P.effect p.2.2).Passes (P.effect plan))

/-- Asking leaves the sink alone, and what is possible is recordable. -/
structure Admissible (P : ActionSink σ) (d : Decision) (plan : ChangePlan) (s : Steered σ) :
    Prop where
  asks : (canApplyAll P plan.apply s.sink).2 = s.sink
  recordable : (canApplyAll P plan.apply s.sink).1 = true → Recordable P d plan s

/-- The scope is enabled and its inverse can be carried out, or there is nothing to do. -/
def Retractable (P : ActionSink σ) (d : Decision) (fallback : ChangePlan) (s : Steered σ) : Prop :=
  (s.controller.config.params d.optimization d.scope ≠ none ∧
    ∀ plan, (d.optimization, d.scope, plan) ∈ s.controller.applied →
      P.Succeeds plan.revert s.sink) ∨
  (s.controller.config.params d.optimization d.scope = none ∧
    P.carry fallback.apply s.sink = s.sink)

/-- What the precomputed inverses rest on. -/
def Undoable (r : Registry Ctx) (policy : Policy) (P : ActionSink σ) :
    Turn Ctx → Course Ctx σ → Prop
  | .batch _, _ => True
  | .decision d, s => ∀ opt, r.get d.optimization = some opt →
    if d.action = .disable then
      Retractable P d (opt.planDisable s.ctx d.scope d.params) s.steered
    else ApplyEnv.refusal ⟨r, policy, s.ctx⟩ s.config d.optimization opt = none →
      Admissible P d (opt.planEnable s.ctx d.scope d.params) s.steered

theorem takeRecorded_of_mem {name scope : String} {applied : List (String × String × ChangePlan)}
    (h : place name scope ∈ applied.map fun p => place p.1 p.2.1) :
    ∃ before plan after, applied = before ++ (name, scope, plan) :: after ∧
      takeRecorded name scope applied = (some plan, before ++ after) := by
  rw [takeRecorded]
  cases hi : rposition (fun p => p.1 = name ∧ p.2.1 = scope) applied with
  | none =>
    obtain ⟨p, hp, hplace⟩ := List.mem_map.mp h
    have := rposition_eq_none.mp hi p hp
    rw [place_inj] at hplace
    simp [hplace.1, hplace.2] at this
  | some i =>
    obtain ⟨before, ⟨name', scope', plan⟩, after, rfl, rfl, hp, -⟩ := rposition_eq_some hi
    simp only [decide_eq_true_eq] at hp
    obtain ⟨rfl, rfl⟩ := hp
    refine ⟨before, plan, after, rfl, ?_⟩
    simp [List.eraseIdx_append_of_length_le]

theorem takeRecorded_of_not_mem {name scope : String}
    {applied : List (String × String × ChangePlan)}
    (h : place name scope ∉ applied.map fun p => place p.1 p.2.1) :
    takeRecorded name scope applied = (none, applied) := by
  have hnone : rposition (fun p => p.1 = name ∧ p.2.1 = scope) applied = none := by
    rw [rposition_eq_none]
    intro p hp
    rw [decide_eq_false_iff_not]
    intro heq
    exact h (List.mem_map.mpr ⟨p, hp, place_inj.mpr heq⟩)
  rw [takeRecorded, hnone]

variable {env : ApplyEnv Ctx} {P : ActionSink σ} {d : Decision} {s : Steered σ} {sink : σ}

theorem reversible_new : Reversible P sink ⟨.new, sink⟩ where
  kept := rfl
  once := List.nodup_nil
  exact := fun _ _ => by simp [standing, OptimizationController.new]
  restoring := trivial
  passes := .nil

/-- Taking back a recorded plan leaves what the others did. -/
theorem Reversible.withdraw (h : Reversible P sink s)
    {before after : List (String × String × ChangePlan)} {plan : ChangePlan}
    (happlied : s.controller.applied = before ++ (d.optimization, d.scope, plan) :: after) :
    Reversible P sink
      ⟨⟨s.controller.config.disable d.optimization d.scope, before ++ after⟩,
        P.carry plan.revert s.sink⟩ := by
  have heffects : effects P s = before.map (fun p => P.effect p.2.2) ++
      P.effect plan :: after.map fun p => P.effect p.2.2 := by
    rw [effects, happlied, List.map_append, List.map_cons]
  have hstanding : standing s = before.map (fun p => place p.1 p.2.1) ++
      place d.optimization d.scope :: after.map fun p => place p.1 p.2.1 := by
    rw [standing, happlied, List.map_append, List.map_cons]
  have hpasses := h.passes
  have hrestoring := h.restoring
  rw [heffects] at hpasses hrestoring
  obtain ⟨hback, hrest⟩ := Effect.back_middle hrestoring
    (List.pairwise_cons.mp (List.pairwise_append.mp hpasses).2.1).1
  have honce := h.once
  rw [hstanding] at honce
  constructor
  · constructor
    · rw [effects, List.map_append]
      change P.carry plan.revert s.sink = _
      rw [h.kept, heffects]
      exact hback
    · rw [standing, List.map_append]
      exact honce.sublist ((List.sublist_cons_self _ _).append_left _)
    · intro name scope
      have hexact := h.exact name scope
      have hfresh := (List.nodup_middle.mp honce)
      rw [List.nodup_cons] at hfresh
      rw [hstanding] at hexact
      change (s.controller.config.disable d.optimization d.scope).params name scope ≠ none ↔ _
      rw [OptimizationConfig.params_disable, standing, List.map_append]
      split_ifs with heq
      · rw [heq.1, heq.2]
        exact iff_of_false (fun hn => hn rfl) hfresh.1
      · have hne : place name scope ≠ place d.optimization d.scope := fun hp =>
          heq (place_inj.mp hp)
        rw [hexact, List.mem_append, List.mem_append, List.mem_cons, or_iff_right hne]
  · rw [effects, List.map_append]
    exact hrest
  · rw [effects, List.map_append]
    exact hpasses.sublist ((List.sublist_cons_self _ _).append_left _)

/-- A plan that restores what it found, and passes none of the others, joins them. -/
theorem Reversible.record (h : Reversible P sink s) {plan : ChangePlan}
    (hfresh : s.controller.config.params d.optimization d.scope = none)
    (hback : P.carry plan.revert (P.carry plan.apply s.sink) = s.sink)
    (hpasses : ∀ p ∈ s.controller.applied, (P.effect p.2.2).Passes (P.effect plan)) :
    Reversible P sink
      ⟨⟨s.controller.config.enable d.optimization d.scope d.params,
        s.controller.applied ++ [(d.optimization, d.scope, plan)]⟩, P.carry plan.apply s.sink⟩ := by
  have hnew : place d.optimization d.scope ∉ standing s := fun hm =>
    (h.exact d.optimization d.scope).mpr hm hfresh
  constructor
  · constructor
    · rw [effects, List.map_append, Effect.replay_append, ← effects, ← h.kept]
      rfl
    · rw [standing, List.map_append, ← standing]
      exact List.nodup_append_comm.mp (List.nodup_cons.mpr ⟨hnew, h.once⟩)
    · intro name scope
      change (s.controller.config.enable d.optimization d.scope d.params).params name scope ≠ none ↔ _
      rw [OptimizationConfig.params_enable, standing, List.map_append, ← standing,
        List.mem_append, ← h.exact, List.map_singleton, List.mem_singleton, place_inj]
      split_ifs with heq
      · exact iff_of_true (Option.some_ne_none _) (.inr heq)
      · exact (or_iff_left heq).symm
  · rw [effects, List.map_append, Effect.restoring_append, ← effects, ← h.kept]
    exact ⟨h.restoring, hback, trivial⟩
  · rw [effects, List.map_append, List.pairwise_append, ← effects]
    refine ⟨h.passes, List.pairwise_singleton _ _, ?_⟩
    intro e he f hf
    obtain ⟨p, hp, rfl⟩ := List.mem_map.mp he
    rw [List.map_singleton, List.mem_singleton] at hf
    rw [hf]
    exact hpasses p hp

/-- A disable takes back the plan of a scope that is enabled, or does nothing. -/
theorem Reversible.retract (h : Reversible P sink s) {opt : Optimization Ctx}
    (hopt : env.registry.get d.optimization = some opt)
    (hr : Retractable P d (opt.planDisable env.ctx d.scope d.params) s) :
    Reversible P sink (exec (disable env P d) s) := by
  apply Post.exec
  unfold disable
  simp only [post_bind, post_get, post_modify]
  rcases hr with ⟨hheld, hsucceeds⟩ | ⟨hidle, hcarry⟩
  · obtain ⟨before, plan, after, happlied, htaken⟩ :=
      takeRecorded_of_mem ((h.exact d.optimization d.scope).mp hheld)
    have hrun := applyActions_of_succeeds (s := ⟨⟨s.controller.config, before ++ after⟩, s.sink⟩)
      (hsucceeds plan (by rw [happlied]; simp))
    rw [htaken]
    change Post (applyActions P plan.revert) ⟨⟨s.controller.config, before ++ after⟩, s.sink⟩ _ _
    unfold Post
    rw [hrun]
    exact h.withdraw happlied
  · have hfree : place d.optimization d.scope ∉ standing s := fun hm =>
      (h.exact d.optimization d.scope).mpr hm hidle
    rw [takeRecorded_of_not_mem hfree, hopt]
    change Post (applyActions P (opt.planDisable env.ctx d.scope d.params).apply) s _ _
    have hconfig : s.controller.config.disable d.optimization d.scope = s.controller.config := by
      apply OptimizationConfig.ext_params
      intro name scope
      rw [OptimizationConfig.params_disable]
      split_ifs with heq
      · rw [heq.1, heq.2, hidle]
      · rfl
    rw [applyActions_eq]
    unfold Post onSink
    unfold ActionSink.carry exec at hcarry
    cases hrun : forEach P.applyAction (opt.planDisable env.ctx d.scope d.params).apply s.sink with
    | ok _ sink' =>
      rw [hrun] at hcarry
      dsimp only at hcarry ⊢
      rw [hconfig, hcarry]
      exact h
    | error e sink' =>
      rw [hrun] at hcarry
      dsimp only at hcarry ⊢
      rw [hcarry]
      exact h

theorem Reversible.enact (h : Reversible P sink s) {opt : Optimization Ctx}
    (ha : Admissible P d (opt.planEnable env.ctx d.scope d.params) s) :
    Reversible P sink (exec (enact env P opt d) s) := by
  apply Post.exec
  unfold Opt.enact
  simp only [post_bind, post_modifyGet]
  obtain ⟨hasks, hrecordable⟩ := ha
  cases hask : canApplyAll P (opt.planEnable env.ctx d.scope d.params).apply s.sink with
  | mk possible asked =>
    rw [hask] at hasks hrecordable
    dsimp only at hasks hrecordable ⊢
    subst hasks
    cases possible with
    | false => exact h
    | true =>
      simp only [Bool.not_true, Bool.false_eq_true, if_false, post_bind, post_modify]
      rcases hrecordable rfl with hfails | ⟨hsucceeds, hfresh, hback, hpasses⟩
      · obtain ⟨e, he⟩ := applyActions_of_failsFirst hfails
        unfold Post
        rw [he]
        exact h
      · unfold Post
        rw [applyActions_of_succeeds hsucceeds]
        exact h.record hfresh hback hpasses

theorem turn_reversible (r : Registry Ctx) (policy : Policy) (P : ActionSink σ) (t : Turn Ctx)
    (c : Course Ctx σ) (h : Reversible P sink c.steered) (hg : Undoable r policy P t c) :
    Reversible P sink (turn r policy P t c).steered := by
  cases t with
  | batch ctx => exact h
  | decision d =>
    change Reversible P sink (exec (applyDecision ⟨r, policy, c.ctx⟩ P d) c.steered)
    unfold applyDecision
    cases hopt : r.get d.optimization with
    | none => exact h
    | some opt =>
      have hg := hg opt hopt
      by_cases hd : d.action = .disable
      · rw [if_pos hd] at hg
        have hdisable : Reversible P sink (exec (disable ⟨r, policy, c.ctx⟩ P d) c.steered) :=
          h.retract hopt hg
        simp only [if_pos hd]
        apply Post.exec
        rw [post_bind]
        unfold exec at hdisable
        unfold Post
        cases hrun : disable ⟨r, policy, c.ctx⟩ P d c.steered with
        | ok _ s' =>
          rw [hrun] at hdisable
          exact hdisable
        | error e s' =>
          rw [hrun] at hdisable
          exact hdisable
      · rw [if_neg hd] at hg
        simp only [if_neg hd]
        apply Post.exec
        rw [post_bind, post_get]
        cases hrefusal : ApplyEnv.refusal ⟨r, policy, c.ctx⟩ c.steered.controller.config
            d.optimization opt with
        | some verdict => exact h
        | none =>
          have henact : Reversible P sink (exec (enact ⟨r, policy, c.ctx⟩ P opt d) c.steered) :=
            h.enact (hg hrefusal)
          unfold exec at henact
          dsimp only
          unfold Post
          cases hrun : enact ⟨r, policy, c.ctx⟩ P opt d c.steered with
          | ok verdict s' =>
            rw [hrun] at henact
            exact henact
          | error e s' =>
            rw [hrun] at henact
            exact henact

/-- In every run whose plans can be undone the sink is what the enabled scopes did to it, and
the configuration holds the scopes that were applied and not disabled since. -/
theorem disable_undoes (r : Registry Ctx) (policy : Policy) (P : ActionSink σ) (ctx : Ctx)
    (sink : σ) (turns : List (Turn Ctx))
    (h : Guarded (turn r policy P) (Undoable r policy P) ⟨ctx, .new, sink⟩ turns) :
    Balanced P sink (run (turn r policy P) ⟨ctx, .new, sink⟩ turns).steered ∧
      (run (turn r policy P) ⟨ctx, .new, sink⟩ turns).config =
        (carriedOut r policy P ⟨ctx, .new, sink⟩ turns).foldl OptimizationConfig.carryOut .new :=
  ⟨(run_invariant (I := fun c => Reversible P sink c.steered) (turn_reversible r policy P)
    reversible_new h).toBalanced, run_config r policy P turns _⟩

end Adabt.Opt
