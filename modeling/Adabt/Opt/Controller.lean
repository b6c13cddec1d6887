import Adabt.Core.Error
import Adabt.Library.Program
import Adabt.Library.Sequences
import Adabt.Opt.Driver

/-! # The optimization controller

The only path that changes physical strategy. Each decision passes the gates in
order, against the configuration of the moment, and only then do its actions
reach the sink. The log of decisions, which nothing here reads, is left out. -/

set_option autoImplicit false

namespace Adabt.Opt
open Adabt.Core Adabt.Library

inductive Verdict where
  | applied
  | forbiddenByGuarantees
  | exceedsConstraints
  | notApplicable
  | conflicts
  | missingPrerequisite
  deriving DecidableEq, Repr

def Verdict.asStr : Verdict → String
  | applied => "applied"
  | forbiddenByGuarantees => "forbidden by guarantees"
  | exceedsConstraints => "exceeds constraints"
  | notApplicable => "not applicable"
  | conflicts => "conflicts with an enabled optimization"
  | missingPrerequisite => "missing prerequisite"

structure ApplyReport where
  applied : List String
  rejected : List (String × Verdict)
  deriving DecidableEq, Repr

/-- What an engine must be able to do for the optimizer to drive it. -/
structure ActionSink (σ : Type) where
  applyAction : Action → EStateM Error σ Unit
  canApply : Action → σ → Bool × σ

structure ApplyEnv (Ctx : Type) where
  registry : Registry Ctx
  policy : Policy
  ctx : Ctx

structure OptimizationController where
  config : OptimizationConfig
  /-- Applied plans, oldest first. -/
  applied : List (String × String × ChangePlan)

namespace OptimizationController

def new : OptimizationController := ⟨.new, []⟩

end OptimizationController

/-- The controller together with the sink it drives. -/
structure Steered (σ : Type) where
  controller : OptimizationController
  sink : σ

variable {Ctx σ α : Type}

abbrev SteerM (σ : Type) := EStateM Error (Steered σ)

def onSink (x : EStateM Error σ α) : SteerM σ α := fun s =>
  match x s.sink with
  | .ok a sink => .ok a { s with sink := sink }
  | .error e sink => .error e { s with sink := sink }

/-- Ask whether each action is possible, up to the first that is not. -/
def canApplyAll (P : ActionSink σ) : List Action → σ → Bool × σ
  | [], s => (true, s)
  | a :: as, s =>
    match P.canApply a s with
    | (true, s') => canApplyAll P as s'
    | (false, s') => (false, s')

/-- An `i64` that wraps. -/
def wrap (n : ℤ) : ℤ := n.bmod (2 ^ 64)

namespace OptimizationConfig

/-- The estimates of the enabled entries, negative ones as nothing. -/
def ramOf (c : OptimizationConfig) (r : Registry Ctx) (ctx : Ctx) : List ℤ :=
  (c.entries.filterMap fun e => r.get (ofLex e.1).1).map fun o => max (o.ramBytes ctx) 0

def committedRam (c : OptimizationConfig) (r : Registry Ctx) (ctx : Ctx) : ℤ :=
  (c.ramOf r ctx).foldl (fun sum n => wrap (sum + n)) 0

end OptimizationConfig

namespace ApplyEnv

/-- Whether one more estimate takes the committed memory over the ceiling. The comparison is
of unsigned numbers. -/
def exceeds (env : ApplyEnv Ctx) (c : OptimizationConfig) (opt : Optimization Ctx) : Bool :=
  match env.policy.constraints.maxRamBytes with
  | none => false
  | some maxRam =>
    let projected := wrap (c.committedRam env.registry env.ctx + max (opt.ramBytes env.ctx) 0)
    maxRam < (projected % 2 ^ 64).toNat

/-- The gates before the sink: why an optimization may not be enabled, if it may not. -/
def refusal (env : ApplyEnv Ctx) (c : OptimizationConfig) (name : String)
    (opt : Optimization Ctx) : Option Verdict :=
  if !permittedBy opt.metadata env.policy then some .forbiddenByGuarantees
  else if opt.metadata.prerequisites.any fun p => !c.isEnabledAnywhere p then
    some .missingPrerequisite
  else if !(env.registry.conflictsAmong name (c.entries.map fun e => (ofLex e.1).1)).isEmpty then
    some .conflicts
  else if !(opt.applicability env.ctx).isApplicable then some .notApplicable
  else if env.exceeds c opt then some .exceedsConstraints
  else none

end ApplyEnv

def applyActions (P : ActionSink σ) (actions : List Action) : SteerM σ Unit :=
  forEach (fun a => onSink (P.applyAction a)) actions

/-- Take the newest recorded plan for a place out of the record. -/
def takeRecorded (name scope : String) (applied : List (String × String × ChangePlan)) :
    Option ChangePlan × List (String × String × ChangePlan) :=
  match rposition (fun p => p.1 = name ∧ p.2.1 = scope) applied with
  | some i => (applied[i]?.map (·.2.2), applied.eraseIdx i)
  | none => (none, applied)

/-- Undo with the inverse recorded when it was applied. -/
def disable (env : ApplyEnv Ctx) (P : ActionSink σ) (d : Decision) : SteerM σ Unit := do
  let s ← get
  let (recorded, applied) := takeRecorded d.optimization d.scope s.controller.applied
  set { s with controller := { s.controller with applied := applied } }
  let plan := match recorded with
    | some p => p.undo
    | none => match env.registry.get d.optimization with
      | some o => o.planDisable env.ctx d.scope d.params
      | none => .empty
  applyActions P plan.apply
  modify fun s => { s with controller :=
    { s.controller with config := s.controller.config.disable d.optimization d.scope } }

/-- Enable or retune what has passed the gates. -/
def enact (env : ApplyEnv Ctx) (P : ActionSink σ) (opt : Optimization Ctx) (d : Decision) :
    SteerM σ Verdict := do
  let plan := opt.planEnable env.ctx d.scope d.params
  let possible ← modifyGet fun s =>
    match canApplyAll P plan.apply s.sink with
    | (possible, sink) => (possible, { s with sink := sink })
  if !possible then return .notApplicable
  applyActions P plan.apply
  modify fun s => { s with controller :=
    { config := s.controller.config.enable d.optimization d.scope d.params
      applied := s.controller.applied ++ [(d.optimization, d.scope, plan)] } }
  return .applied

def applyDecision (env : ApplyEnv Ctx) (P : ActionSink σ) (d : Decision) : SteerM σ Verdict := do
  match env.registry.get d.optimization with
  | none => return .notApplicable
  | some opt =>
    if d.action = .disable then
      disable env P d
      return .applied
    else
      match env.refusal (← get).controller.config d.optimization opt with
      | some verdict => return verdict
      | none => enact env P opt d

def Decision.label (d : Decision) : String := d.optimization ++ "[" ++ d.scope ++ "]"

def ApplyReport.note (report : ApplyReport) (label : String) (verdict : Verdict) : ApplyReport :=
  if verdict = .applied then { report with applied := report.applied ++ [label] }
  else { report with rejected := report.rejected ++ [(label, verdict)] }

/-- Apply a batch of decisions, gating each one. -/
def apply (env : ApplyEnv Ctx) (P : ActionSink σ) : ApplyReport → List Decision →
    SteerM σ ApplyReport
  | report, [] => return report
  | report, d :: ds => do
    let verdict ← applyDecision env P d
    apply env P (report.note d.label verdict) ds

end Adabt.Opt
