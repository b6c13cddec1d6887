import Adabt.Opt.Controller

/-! # Legal configurations

What the gates keep true of the configuration over whole runs. They stand on the
enabling path only: taking an optimization away that others rest on, a context
whose estimates outgrow the ceiling, and a sum that wraps are what they miss. -/

set_option autoImplicit false

namespace Adabt.Opt
open Adabt.Core Adabt.Library

variable {Ctx σ : Type}

/-- The estimates of the enabled entries stay under the ceiling, as numbers without a
width. -/
def FitsCeiling (r : Registry Ctx) (policy : Policy) (ctx : Ctx) (c : OptimizationConfig) : Prop :=
  ∀ maxRam : ℕ, policy.constraints.maxRamBytes = some maxRam → (c.ramOf r ctx).sum ≤ maxRam

structure Legal (r : Registry Ctx) (policy : Policy) (ctx : Ctx) (c : OptimizationConfig) :
    Prop where
  apart : ∀ name scope name' scope', c.params name scope ≠ none →
    c.params name' scope' ≠ none → place name scope ≠ place name' scope' → ¬ r.Conflict name name'
  backed : ∀ name scope, c.params name scope ≠ none → ∀ m, r.info name = some m →
    ∀ p ∈ m.prerequisites, c.isEnabledAnywhere p
  permitted : ∀ name scope, c.params name scope ≠ none →
    ∃ m, r.info name = some m ∧ permittedBy m policy
  fits : FitsCeiling r policy ctx c

/-! ## The memory that is committed -/

namespace OptimizationConfig

variable {r : Registry Ctx} {ctx : Ctx}

theorem ramOf_nonneg {c : OptimizationConfig} {n : ℤ} (h : n ∈ c.ramOf r ctx) : 0 ≤ n := by
  simp only [ramOf, List.mem_map] at h
  obtain ⟨o, -, rfl⟩ := h
  exact le_max_right _ _

theorem ramOf_disable (c : OptimizationConfig) (name scope : String) :
    ((c.disable name scope).ramOf r ctx).sum ≤ (c.ramOf r ctx).sum := by
  apply List.Sublist.sum_le_sum
  · exact (List.filter_sublist.filterMap _).map _
  · intro n hn
    exact ramOf_nonneg hn

theorem ramOf_enable {c : OptimizationConfig} {name : String} {opt : Optimization Ctx}
    (hopt : r.get name = some opt) (scope : String) (p : Params) :
    ((c.enable name scope p).ramOf r ctx).sum =
      max (opt.ramBytes ctx) 0 + ((c.disable name scope).ramOf r ctx).sum := by
  have hback : (c.enabled.erase (place name scope)).insert (place name scope) p =
      c.enabled.insert (place name scope) p := by
    ext k : 1
    simp only [OrdMap.get_insert, OrdMap.get_erase]
    split_ifs <;> rfl
  have hperm := (c.enabled.erase (place name scope)).insert_perm (v := p)
    (OrdMap.get_erase_self _ _)
  rw [hback] at hperm
  have hram : ((c.enable name scope p).ramOf r ctx).Perm
      (max (opt.ramBytes ctx) 0 :: (c.disable name scope).ramOf r ctx) := by
    refine ((hperm.filterMap _).map _).trans ?_
    simp only [place, ofLex_toLex, List.filterMap_cons, hopt, List.map_cons]
    exact List.Perm.refl _
  rw [hram.sum_eq, List.sum_cons]

theorem wrap_emod (n : ℤ) : wrap n % 2 ^ 64 = n % 2 ^ 64 := Int.bmod_emod

theorem committedRam_emod (c : OptimizationConfig) :
    c.committedRam r ctx % 2 ^ 64 = (c.ramOf r ctx).sum % 2 ^ 64 := by
  have hfold : ∀ (ns : List ℤ) (sum : ℤ),
      ns.foldl (fun sum n => wrap (sum + n)) sum % 2 ^ 64 = (sum + ns.sum) % 2 ^ 64 := by
    intro ns
    induction ns with
    | nil => intro sum; simp
    | cons n ns ih =>
      intro sum
      rw [List.foldl_cons, ih, Int.add_emod, wrap_emod, ← Int.add_emod, List.sum_cons, add_assoc]
  rw [committedRam, hfold, zero_add]

end OptimizationConfig

/-- A sum that stays within 64 bits and passes the ceiling's gate is under the ceiling. -/
theorem fits_of_not_exceeds {env : ApplyEnv Ctx} {c : OptimizationConfig} {opt : Optimization Ctx}
    (hsmall : (c.ramOf env.registry env.ctx).sum + max (opt.ramBytes env.ctx) 0 < 2 ^ 64)
    (h : env.exceeds c opt = false) (maxRam : ℕ)
    (hmax : env.policy.constraints.maxRamBytes = some maxRam) :
    (c.ramOf env.registry env.ctx).sum + max (opt.ramBytes env.ctx) 0 ≤ maxRam := by
  have hnonneg : 0 ≤ (c.ramOf env.registry env.ctx).sum :=
    List.sum_nonneg fun n => OptimizationConfig.ramOf_nonneg
  have hest : 0 ≤ max (opt.ramBytes env.ctx) 0 := le_max_right _ _
  rw [ApplyEnv.exceeds, hmax] at h
  simp only [decide_eq_false_iff_not, not_lt] at h
  rw [OptimizationConfig.wrap_emod, Int.add_emod, OptimizationConfig.committedRam_emod,
    ← Int.add_emod, Int.emod_eq_of_lt (by omega) hsmall] at h
  omega

/-! ## One decision -/

/-- What a decision may do to the configuration. -/
inductive Moves (env : ApplyEnv Ctx) (d : Decision) (c : OptimizationConfig) :
    OptimizationConfig → Prop
  | stays : Moves env d c c
  | disables : d.action = .disable → Moves env d c (c.disable d.optimization d.scope)
  | enables (opt : Optimization Ctx) : d.action ≠ .disable →
      env.registry.get d.optimization = some opt → env.refusal c d.optimization opt = none →
      Moves env d c (c.enable d.optimization d.scope d.params)

def SameController (s s' : Steered σ) : Prop := s'.controller = s.controller

instance : Std.Refl (SameController (σ := σ)) := ⟨fun _ => rfl⟩

instance : IsTrans (Steered σ) SameController := ⟨fun _ _ _ h h' => h'.trans h⟩

theorem within_applyActions (P : ActionSink σ) (actions : List Action) :
    Within SameController (applyActions P actions) := by
  apply within_forEach
  intro a _ s
  unfold Post onSink
  cases P.applyAction a s.sink with
  | ok _ _ => rfl
  | error _ _ => rfl

theorem applyDecision_moves (env : ApplyEnv Ctx) (P : ActionSink σ) (d : Decision)
    (s : Steered σ) : Post (applyDecision env P d) s
      (fun _ s' => Moves env d s.controller.config s'.controller.config)
      fun _ s' => Moves env d s.controller.config s'.controller.config := by
  unfold applyDecision
  cases hopt : env.registry.get d.optimization with
  | none => exact .stays
  | some opt =>
    by_cases hd : d.action = .disable
    · simp only [if_pos hd, post_bind]
      unfold disable
      simp only [post_bind, post_get, post_modify]
      generalize takeRecorded d.optimization d.scope s.controller.applied = taken
      apply (within_applyActions P _ _).mono
      · intro _ s' hs'
        change Moves env d s.controller.config
          (s'.controller.config.disable d.optimization d.scope)
        rw [hs']
        exact .disables hd
      · intro _ s' hs'
        rw [hs']
        exact .stays
    · simp only [if_neg hd, post_bind, post_get]
      cases hrefusal : env.refusal s.controller.config d.optimization opt with
      | some verdict => exact .stays
      | none =>
        unfold enact
        simp only [post_bind, post_modifyGet]
        cases canApplyAll P (opt.planEnable env.ctx d.scope d.params).apply s.sink with
        | mk possible sink =>
          cases possible with
          | false => exact .stays
          | true =>
            simp only [Bool.not_true, Bool.false_eq_true, if_false, post_bind, post_modify]
            apply (within_applyActions P _ _).mono
            · intro _ s' hs'
              change Moves env d s.controller.config
                (s'.controller.config.enable d.optimization d.scope d.params)
              rw [hs']
              exact .enables opt hd hopt hrefusal
            · intro _ s' hs'
              rw [hs']
              exact .stays

/-! ## What a decision keeps -/

/-- No optimization that stays enabled loses a prerequisite. -/
def KeepsBacking (r : Registry Ctx) (c : OptimizationConfig) (name scope : String) : Prop :=
  ∀ name' scope' m, c.params name' scope' ≠ none → place name' scope' ≠ place name scope →
    r.info name' = some m → name ∈ m.prerequisites →
      ∃ scope'' ≠ scope, c.params name scope'' ≠ none

/-- The sum a decision is judged by stays within 64 bits. -/
def Representable (r : Registry Ctx) (ctx : Ctx) (c : OptimizationConfig) (name : String) : Prop :=
  ∀ opt, r.get name = some opt → (c.ramOf r ctx).sum + max (opt.ramBytes ctx) 0 < 2 ^ 64

theorem params_disable_ne {c : OptimizationConfig} {name scope name' scope' : String}
    (h : (c.disable name scope).params name' scope' ≠ none) :
    c.params name' scope' ≠ none ∧ place name' scope' ≠ place name scope := by
  rw [OptimizationConfig.params_disable] at h
  split_ifs at h with hs
  · exact absurd rfl h
  · exact ⟨h, fun heq => hs (place_inj.mp heq)⟩

variable {r : Registry Ctx} {policy : Policy} {ctx : Ctx} {c : OptimizationConfig}

theorem Legal.disable (h : Legal r policy ctx c) {name scope : String}
    (hk : KeepsBacking r c name scope) : Legal r policy ctx (c.disable name scope) where
  apart := by
    intro n s n' s' hn hn'
    exact h.apart n s n' s' (params_disable_ne hn).1 (params_disable_ne hn').1
  backed := by
    intro n s hn m hm p hp
    rw [OptimizationConfig.isEnabledAnywhere_iff]
    have hheld := params_disable_ne hn
    by_cases hpn : p = name
    · obtain ⟨s', hs', hne⟩ := hk n s m hheld.1 hheld.2 hm (hpn ▸ hp)
      use s'
      rw [hpn, OptimizationConfig.params_disable, if_neg fun heq => hs' heq.2]
      exact Option.isSome_iff_ne_none.mpr hne
    · have hp' := (c.isEnabledAnywhere_iff p).mp (h.backed n s hheld.1 m hm p hp)
      obtain ⟨s', hs'⟩ := hp'
      use s'
      rwa [OptimizationConfig.params_disable, if_neg fun heq => hpn heq.1]
  permitted := by
    intro n s hn
    exact h.permitted n s (params_disable_ne hn).1
  fits := by
    intro maxRam hmax
    exact (OptimizationConfig.ramOf_disable c name scope).trans (h.fits maxRam hmax)

/-- What passes the gates keeps the configuration legal. -/
theorem Legal.enable (h : Legal r policy ctx c) {name : String} {opt : Optimization Ctx}
    (hopt : r.get name = some opt)
    (hgates : ApplyEnv.refusal ⟨r, policy, ctx⟩ c name opt = none)
    (hsmall : Representable r ctx c name) (scope : String) (p : Params) :
    Legal r policy ctx (c.enable name scope p) := by
  rw [ApplyEnv.refusal] at hgates
  split_ifs at hgates with hpermitted hmissing hconflicts happlicable hexceeds
  simp only [Bool.not_eq_true', Bool.not_eq_false] at hpermitted
  simp only [List.any_eq_true, Bool.not_eq_true', not_exists, not_and, Bool.not_eq_false]
    at hmissing
  simp only [Bool.not_eq_true', Bool.not_eq_false, List.isEmpty_iff] at hconflicts
  have hinfo : r.info name = some opt.metadata := by rw [Registry.info, hopt, Option.map_some]
  have hfree : ∀ n s, c.params n s ≠ none → ¬ r.Conflict name n := by
    intro n s hn hc
    have hmem : n ∈ c.entries.map fun e => (ofLex e.1).1 := by
      have hkey := (c.mem_keys n s).mpr (Option.isSome_iff_ne_none.mpr hn)
      obtain ⟨e, he, hek⟩ := List.mem_map.mp hkey
      exact List.mem_map.mpr ⟨e, he, by rw [hek]; rfl⟩
    have := Registry.mem_conflictsAmong.mpr ⟨by rw [hinfo, Option.isSome_some], hmem, hc⟩
    rw [hconflicts] at this
    cases this
  have hheld : ∀ n s, (c.enable name scope p).params n s ≠ none →
      (n = name ∧ s = scope) ∨ c.params n s ≠ none := by
    intro n s hn
    rw [OptimizationConfig.params_enable] at hn
    split_ifs at hn with hs
    · exact .inl hs
    · exact .inr hn
  have hmono : ∀ q, c.isEnabledAnywhere q → (c.enable name scope p).isEnabledAnywhere q := by
    intro q hq
    rw [OptimizationConfig.isEnabledAnywhere_iff] at hq ⊢
    obtain ⟨s, hs⟩ := hq
    use s
    rw [OptimizationConfig.params_enable]
    split_ifs
    · rfl
    · exact hs
  constructor
  · intro n s n' s' hn hn' hne hc
    rcases hheld n s hn with ⟨hname, hscope⟩ | hold
    · rcases hheld n' s' hn' with ⟨hname', hscope'⟩ | hold'
      · exact hne (by rw [hname, hscope, hname', hscope'])
      · exact hfree n' s' hold' (hname ▸ hc)
    · rcases hheld n' s' hn' with ⟨hname', -⟩ | hold'
      · exact hfree n s hold (hname' ▸ hc).symm
      · exact h.apart n s n' s' hold hold' hne hc
  · intro n s hn m hm q hq
    apply hmono
    rcases hheld n s hn with ⟨rfl, rfl⟩ | hn
    · obtain rfl := Option.some.inj (hinfo.symm.trans hm)
      exact hmissing q hq
    · exact h.backed n s hn m hm q hq
  · intro n s hn
    rcases hheld n s hn with ⟨rfl, rfl⟩ | hn
    · exact ⟨opt.metadata, hinfo, hpermitted⟩
    · exact h.permitted n s hn
  · intro maxRam hmax
    have hceiling := @fits_of_not_exceeds _ ⟨r, policy, ctx⟩ _ _ (hsmall opt hopt)
      (by simpa using hexceeds) maxRam hmax
    have hdisable := @OptimizationConfig.ramOf_disable _ r ctx c name scope
    rw [OptimizationConfig.ramOf_enable hopt]
    dsimp only at hceiling
    omega

/-! ## Runs -/

/-- What happens to a controller: a batch brings a context, and its decisions follow. -/
inductive Turn (Ctx : Type) where
  | batch (ctx : Ctx)
  | decision (d : Decision)

/-- A controller at work, with the context of the current batch. -/
structure Course (Ctx σ : Type) where
  ctx : Ctx
  steered : Steered σ

def Course.config (s : Course Ctx σ) : OptimizationConfig := s.steered.controller.config

def turn (r : Registry Ctx) (policy : Policy) (P : ActionSink σ) :
    Turn Ctx → Course Ctx σ → Course Ctx σ
  | .batch ctx, s => { s with ctx := ctx }
  | .decision d, s =>
    { s with steered := exec (applyDecision ⟨r, policy, s.ctx⟩ P d) s.steered }

/-- What the gates do not look at. -/
def Overseen (r : Registry Ctx) (policy : Policy) : Turn Ctx → Course Ctx σ → Prop
  | .batch ctx, s => FitsCeiling r policy ctx s.config
  | .decision d, s =>
    if d.action = .disable then KeepsBacking r s.config d.optimization d.scope
    else Representable r s.ctx s.config d.optimization

/-- A sink that never fails. -/
def ActionSink.Total (P : ActionSink σ) : Prop :=
  ∀ a s, Returns (P.applyAction a) s fun _ _ => True

theorem ActionSink.Total.actions {P : ActionSink σ} (hP : P.Total) (actions : List Action)
    (s : Steered σ) : Returns (applyActions P actions) s fun _ _ => True := by
  apply post_forEach (I := fun _ _ => True)
  · intro a as s _
    obtain ⟨_, s', hs', -⟩ := (hP a s.sink).exists
    unfold Post onSink
    rw [hs']
    trivial
  · trivial

theorem ActionSink.Total.decision {P : ActionSink σ} (hP : P.Total) (env : ApplyEnv Ctx)
    (d : Decision) (s : Steered σ) : Returns (applyDecision env P d) s fun _ _ => True := by
  unfold applyDecision
  cases env.registry.get d.optimization with
  | none => trivial
  | some opt =>
    by_cases hd : d.action = .disable
    · simp only [if_pos hd]
      unfold disable
      simp only [post_bind, post_get, post_modify]
      generalize takeRecorded d.optimization d.scope s.controller.applied = taken
      exact (hP.actions _ _).mono fun _ _ _ => trivial
    · simp only [if_neg hd, post_bind, post_get]
      cases env.refusal s.controller.config d.optimization opt with
      | some verdict => trivial
      | none =>
        unfold enact
        simp only [post_bind, post_modifyGet]
        cases canApplyAll P (opt.planEnable env.ctx d.scope d.params).apply s.sink with
        | mk possible sink =>
          cases possible with
          | false => trivial
          | true =>
            simp only [Bool.not_true, Bool.false_eq_true, if_false, post_bind, post_modify]
            exact (hP.actions _ _).mono fun _ _ _ => trivial

/-- With such a sink a batch carries out its decisions one by one. -/
theorem apply_run {P : ActionSink σ} (hP : P.Total) (ds : List Decision) (report : ApplyReport)
    (s : Steered σ) : Returns (apply ⟨r, policy, ctx⟩ P report ds) s fun _ s' =>
      run (turn r policy P) ⟨ctx, s⟩ (ds.map .decision) = ⟨ctx, s'⟩ := by
  induction ds generalizing report s with
  | nil => rfl
  | cons d ds ih =>
    obtain ⟨verdict, s', hs', -⟩ := (hP.decision ⟨r, policy, ctx⟩ d s).exists
    have hturn : turn r policy P (.decision d) ⟨ctx, s⟩ = ⟨ctx, s'⟩ := by
      simp only [turn, exec, hs']
    rw [apply, List.map_cons, run_cons, hturn]
    unfold Returns
    rw [post_bind]
    unfold Post
    rw [hs']
    exact ih _ s'

theorem legal_new : Legal r policy ctx .new where
  apart := fun _ _ _ _ h => absurd rfl h
  backed := fun _ _ h => absurd rfl h
  permitted := fun _ _ h => absurd rfl h
  fits := fun maxRam _ => Int.natCast_nonneg maxRam

theorem turn_legal (P : ActionSink σ) (t : Turn Ctx) (s : Course Ctx σ)
    (h : Legal r policy s.ctx s.config) (hg : Overseen r policy t s) :
    Legal r policy (turn r policy P t s).ctx (turn r policy P t s).config := by
  cases t with
  | batch ctx => exact ⟨h.apart, h.backed, h.permitted, hg⟩
  | decision d =>
    have hmoves := (applyDecision_moves ⟨r, policy, s.ctx⟩ P d s.steered).exec
    change Legal r policy s.ctx s.steered.controller.config at h
    change if d.action = .disable then _ else _ at hg
    change Legal r policy s.ctx
      (exec (applyDecision ⟨r, policy, s.ctx⟩ P d) s.steered).controller.config
    generalize (exec (applyDecision ⟨r, policy, s.ctx⟩ P d) s.steered).controller.config = c'
      at hmoves
    cases hmoves with
    | stays => exact h
    | disables hd =>
      rw [if_pos hd] at hg
      exact h.disable hg
    | enables opt hd hopt hgates =>
      rw [if_neg hd] at hg
      exact h.enable hopt hgates hg _ _

/-- In every run that keeps what the gates do not look at, the configuration stays legal. -/
theorem legal_configuration (r : Registry Ctx) (policy : Policy) (P : ActionSink σ) (ctx : Ctx)
    (sink : σ) (turns : List (Turn Ctx))
    (h : Guarded (turn r policy P) (Overseen r policy) ⟨ctx, .new, sink⟩ turns) :
    Legal r policy (run (turn r policy P) ⟨ctx, .new, sink⟩ turns).ctx
      (run (turn r policy P) ⟨ctx, .new, sink⟩ turns).config :=
  run_invariant (I := fun s => Legal r policy s.ctx s.config) (turn_legal P) legal_new h

/-! ## One optimization resting on another -/

def fake (name : String) (prerequisites : List String) : Optimization Unit where
  metadata :=
    { name := name
      scopeKind := .global
      requiresGuarantees := .any
      prerequisites := prerequisites
      conflictsWith := [] }
  applicability _ := .applicable
  candidateScopes _ := ["global"]
  ramBytes _ := 40
  planEnable _ _ _ := .empty
  planDisable _ _ _ := .empty

def twoFakes : Registry Unit :=
  let base := Registry.new.register (fake "base" [])
  (base.bind (·.register (fake "dependent" ["base"]))).getD .new

def idle : ActionSink Unit := ⟨fun _ => pure (), fun _ s => (true, s)⟩

def hundredBytes : Policy := ⟨.adaptive, ⟨.strict, .strict⟩, ⟨some 100⟩⟩

def ask (name : String) (action : DecisionAction) : Turn Unit :=
  .decision ⟨name, "global", action, .new, ""⟩

/-- Taking the prerequisite away leaves the dependent enabled. -/
theorem prerequisite_withdrawn :
    ¬ Legal twoFakes hundredBytes ()
      (run (turn twoFakes hundredBytes idle) ⟨(), .new, ()⟩
        [ask "base" .enable, ask "dependent" .enable, ask "base" .disable]).config := by
  intro h
  have hbacked := h.backed "dependent" "global" (by decide +kernel) _ rfl "base" (by decide)
  revert hbacked
  decide +kernel

theorem info_twoFakes {name : String} {m : OptMeta} (hm : twoFakes.info name = some m) :
    m = (fake "base" []).metadata ∨
      name = "dependent" ∧ m = (fake "dependent" ["base"]).metadata := by
  have hget : ∀ name, twoFakes.get name = ((OrdMap.insert ∅ "base" (fake "base" [])).insert
      "dependent" (fake "dependent" ["base"])).get name := fun _ => rfl
  rw [Registry.info, hget, OrdMap.get_insert, OrdMap.get_insert] at hm
  split_ifs at hm with hd hb
  · cases hm
    exact .inr ⟨hd, rfl⟩
  · cases hm
    exact .inl rfl
  · cases hm

theorem legal_withdrawn_in_order :
    Legal twoFakes hundredBytes ()
      (run (turn twoFakes hundredBytes idle) ⟨(), .new, ()⟩
        [ask "base" .enable, ask "dependent" .enable, ask "dependent" .disable,
          ask "base" .disable]).config := by
  apply legal_configuration twoFakes hundredBytes idle () () [ask "base" .enable,
    ask "dependent" .enable, ask "dependent" .disable, ask "base" .disable]
  refine ⟨?_, ?_, ?_, ?_, trivial⟩
  · change Representable _ _ _ _
    intro opt hopt
    cases hopt
    decide
  · change Representable _ _ _ _
    intro opt hopt
    cases hopt
    decide +kernel
  · change KeepsBacking _ _ _ _
    intro name' scope' m _ _ hm hp
    rcases info_twoFakes hm with rfl | ⟨-, rfl⟩
    · cases hp
    · simp [fake] at hp
  · change KeepsBacking _ _ _ _
    intro name' scope' m hheld _ hm hp
    rcases info_twoFakes hm with rfl | ⟨rfl, -⟩
    · cases hp
    · have hconfig : (turn twoFakes hundredBytes idle (ask "dependent" .disable)
          (turn twoFakes hundredBytes idle (ask "dependent" .enable)
            (turn twoFakes hundredBytes idle (ask "base" .enable) ⟨(), .new, ()⟩))).config =
          OptimizationConfig.new.enable "base" "global" .new := by decide +kernel
      rw [hconfig, OptimizationConfig.params_enable] at hheld
      simp at hheld

end Adabt.Opt
