import Adabt.Core.Arith
import Adabt.Opt.CostModel
import Adabt.Opt.Driver
import Adabt.Opt.Registry
import Adabt.Telemetry.Collector
import Mathlib.Data.List.Lex
import Mathlib.Order.Lex

/-! # The adaptive driver

It proposes changes from what telemetry shows, measures what came of them, and takes
back what does not pay. Cooldowns keep a scope from being changed again at once. -/

set_option autoImplicit false

/-! ## Workload memory

A workload has a coarse fingerprint, and the configuration it settled on is kept
under it. What is recalled for a similar workload is only a suggestion. -/

namespace Adabt.Opt
open Adabt.Core Adabt.Library Adabt.Telemetry

/-- The mix of writes, the share of the busiest shape and the hot fields, in the order
the fields are compared in. -/
abbrev Fingerprint := ℕ ×ₗ ℕ ×ₗ List (String ×ₗ String)

namespace Fingerprint

def buckets : ℕ := 5

def bucket (fraction : F64) : ℕ :=
  let clamped := F64.clamp fraction .zero .one
  min (F64.mul clamped (.ofInt buckets)).castU8 (buckets - 1)

def maxHotFields : ℕ := 4

def of (telemetry : Snapshot) : Fingerprint :=
  let total := telemetry.totalCalls
  let busiest := (telemetry.perShape.entries.map fun e => e.2.calls).foldl max 0
  let concentration := if total = 0 then F64.zero else F64.div (.ofInt busiest) (.ofInt total)
  toLex (bucket telemetry.writeFraction, toLex (bucket concentration,
    (telemetry.hotFields.take maxHotFields).map toLex))

def jaccard (a b : List (String ×ₗ String)) : F64 :=
  if a.isEmpty && b.isEmpty then .one
  else
    let shared := a.countP fun x => ofLex x ∈ b.map ofLex
    let union := a.length + b.length - shared
    if union = 0 then .one else F64.div (.ofInt shared) (.ofInt union)

/-- How alike two fingerprints are, in equal thirds. -/
def similarity (f g : Fingerprint) : F64 :=
  let alike (a b : ℕ) := F64.sub .one (F64.div (F64.abs (F64.sub (.ofInt a) (.ofInt b))) (.ofInt buckets))
  let fields := jaccard (ofLex (ofLex f).2).2 (ofLex (ofLex g).2).2
  F64.div (F64.add (F64.add (alike (ofLex f).1 (ofLex g).1)
    (alike (ofLex (ofLex f).2).1 (ofLex (ofLex g).2).1)) fields) (.ofInt 3)

end Fingerprint

structure Remembered where
  config : OptimizationConfig
  seen : ℕ

structure WorkloadMemory where
  entries : OrdMap Fingerprint Remembered

namespace WorkloadMemory

def new : WorkloadMemory := ⟨∅⟩

def recallThreshold : F64 := .lit 85 100

def remember (m : WorkloadMemory) (fingerprint : Fingerprint) (config : OptimizationConfig) :
    WorkloadMemory :=
  let seen := match m.entries.get fingerprint with
    | some r => r.seen
    | none => 0
  ⟨m.entries.insert fingerprint ⟨config, seen + 1⟩⟩

/-- The better of what has been found and one more entry. -/
def recallStep (current : Fingerprint) (best : Option (Remembered × F64))
    (entry : Fingerprint × Remembered) : Option (Remembered × F64) :=
  let score := current.similarity entry.1
  if F64.lt score recallThreshold then best
  else match best with
    | none => some (entry.2, score)
    | some (prev, prevScore) =>
      if F64.gt score prevScore || (F64.beq score prevScore && prev.seen < entry.2.seen) then
        some (entry.2, score)
      else best

end WorkloadMemory

/-- The configuration of the most similar workload, with how similar it is. -/
def WorkloadMemory.recall (m : WorkloadMemory) (current : Fingerprint) :
    Option (OptimizationConfig × F64) :=
  (m.entries.entries.foldl (WorkloadMemory.recallStep current) none).map fun x => (x.1.config, x.2)

end Adabt.Opt

/-! ## Joint search

Every combination of a few candidates is tried, and the best one is taken of those
that are coherent among themselves and affordable. -/

namespace Adabt.Opt
open Adabt.Core

structure Candidate where
  key : String
  name : String
  metadata : OptMeta
  soloScore : F64
  ramBytes : ℤ

structure Combination where
  keys : List String
  total : F64
  ramBytes : ℤ

def maxExhaustive : ℕ := 12

/-- No conflict declared between any of them, and every prerequisite among them. -/
def isCoherent (chosen : List (String × OptMeta)) : Bool :=
  let names := chosen.map (·.1)
  chosen.all fun c =>
    (c.2.conflictsWith.all fun o => o ∉ names) && c.2.prerequisites.all fun p => p ∈ names

/-- The candidates whose bit is set. -/
def chosenBy (mask : ℕ) (candidates : List Candidate) : List Candidate :=
  (candidates.zipIdx.filter fun c => mask.testBit c.2).map (·.1)

def combinationOf (chosen : List Candidate) : Combination where
  keys := chosen.map (·.key)
  total := F64.sum (chosen.map (·.soloScore))
  ramBytes := (chosen.map fun c => max c.ramBytes 0).sum

def affordable (ceiling : Option ℕ) (ram : ℤ) : Bool :=
  match ceiling with
  | some limit => !decide (limit < (ram % 2 ^ 64).toNat)
  | none => true

def betterThan (c : Combination) : Option Combination → Bool
  | none => true
  | some b => F64.gt c.total b.total || (F64.beq c.total b.total && c.ramBytes < b.ramBytes)

def tryMask (candidates : List Candidate) (ceiling : Option ℕ) (best : Option Combination)
    (mask : ℕ) : Option Combination :=
  let chosen := chosenBy mask candidates
  if chosen.isEmpty then best
  else if !isCoherent (chosen.map fun c => (c.name, c.metadata)) then best
  else
    let c := combinationOf chosen
    if !affordable ceiling c.ramBytes then best
    else if betterThan c best then some c else best

/-- Nothing where there is nothing to choose from or too much. -/
def bestCombination (candidates : List Candidate) (policy : Policy) : Option Combination :=
  if candidates.isEmpty || maxExhaustive < candidates.length then none
  else (List.range (2 ^ candidates.length)).foldl
    (tryMask candidates policy.constraints.maxRamBytes) none

end Adabt.Opt

/-! ## The driver and its rounds -/

namespace Adabt.Opt
open Adabt.Core Adabt.Library Adabt.Telemetry
open Adabt.Indexing (IndexKind)

inductive Reversibility where
  | instant
  | rebuildRequired
  | destructive
  deriving DecidableEq

/-- What an optimization may look at when deciding. -/
structure OptContext where
  policy : RankedPolicy
  telemetry : Snapshot
  collections : List (String × ℕ)
  filteredFields : List (String × String × ℕ)
  fixedSizeCollections : List String
  maxIds : List (String × ℕ)
  existingIndexes : List (String × String × IndexKind)
  currentBytes : ℕ

/-- What only the adaptive driver reads of an optimization. -/
structure Profile where
  summary : String
  reversibility : Reversibility
  axisEffects : AxisEffects
  estimate : OptContext → CostEstimate

/-- A registry with the profiles of its optimizations, each registered once. -/
structure Catalogue where
  registry : Registry OptContext
  profile : String → Profile
  distinct : registry.order.Nodup
  estimated : ∀ name opt, registry.get name = some opt → ∀ ctx,
    ((profile name).estimate ctx).ramBytes = opt.ramBytes ctx

/-- The optimizations in the order they were registered in. -/
def Registry.iter {Ctx : Type} (r : Registry Ctx) : List (Optimization Ctx) := r.order.filterMap r.get

structure DriverInput where
  catalogue : Catalogue
  current : OptimizationConfig
  policy : RankedPolicy
  telemetry : Snapshot
  ctx : OptContext
  pinned : List (String × String)
  underExperiment : List (String × String)

def minObservations : ℕ := 500

def cooldownCycles : ℕ := 3

def retractionCooldownCycles : ℕ := 50

def maxChangesPerCycle : ℕ := 2

def minScore : F64 := .lit 1 2

def keepScore : F64 := .lit 1 4

def minWritesPerUse : F64 := .ofInt 50

def observeAfterCycles : ℕ := 3

def stableCyclesBeforeRemembering : ℕ := 2

def scopeKey (name scope : String) : String := name ++ "\x00" ++ scope

/-- A change waiting to be measured. -/
structure Pending where
  optimization : String
  baseline : Metrics
  appliedAt : ℕ

structure AdaptiveDriver where
  cycles : ℕ
  /-- The cycle each scope was last changed in. -/
  lastChanged : OrdMap Place ℕ
  /-- The cycle each scope was retracted in for not being used. -/
  retracted : OrdMap Place ℕ
  costs : CostModel
  pending : List Pending
  memory : WorkloadMemory
  stableCycles : ℕ
  proposals : ℕ

def Decision.place (d : Decision) : Place := Opt.place d.optimization d.scope

/-- A proposal carries no parameters of its own. -/
def Decision.propose (optimization scope : String) (action : DecisionAction) (trigger : String) :
    Decision :=
  { optimization, scope, action, params := .new, trigger }

/-- Whether a disable was driven by measurement, as its text says. -/
def evidenceBased (trigger : String) : Bool :=
  decide ("has not chosen".toList <:+: trigger.toList) || decide ("hit rate is".toList <:+: trigger.toList)

/-- A scope split at its first dot. -/
def splitScope (scope : String) : Option (String × String) :=
  match scope.toList.span (· ≠ '.') with
  | (collection, _ :: field) => some (.ofList collection, .ofList field)
  | (_, []) => none

def indexReason (scope : String) (telemetry : Snapshot) (ctx : OptContext) : Option String := do
  let (collection, field) ← splitScope scope
  if !(ctx.existingIndexes.any fun i => i.1 = collection && i.2.1 = field) then none
  else
    let recent := telemetry.totalCalls
    if recent < minObservations then none
    else
      let uses := telemetry.indexUseCount collection field
      let upkeep := telemetry.indexMaintenanceCount collection field
      if uses = 0 then
        some ("the planner has not chosen " ++ collection ++ "." ++ field ++ " in the last " ++
          toString recent ++ " operations, while paying " ++ toString upkeep ++
          " index writes to keep it")
      else
        let p := ctx.policy.priority.clamped
        let tolerance := F64.div (F64.mul minWritesPerUse (F64.add .one (.ofInt p.speed)))
          (F64.add .one (.ofInt p.resources))
        let perUse := F64.div (.ofInt upkeep) (.ofInt uses)
        if F64.gt perUse tolerance then
          some (collection ++ "." ++ field ++ " costs " ++ perUse.fixed 0 ++
            " index writes per planner use, past the " ++ tolerance.fixed 0 ++
            " this policy tolerates (" ++ toString uses ++ " uses, " ++ toString upkeep ++ " writes)")
        else none

def probes (name : String) (telemetry : Snapshot) : ℕ :=
  add (countOf telemetry.cacheHits name) (countOf telemetry.cacheMisses name)

def cacheReason (name : String) (telemetry : Snapshot) : Option String := do
  let hits ← telemetry.hitRate name
  if probes name telemetry < minObservations || F64.ge hits (.lit 5 100) then none
  else some ("hit rate is " ++ (F64.mul hits (.ofInt 100)).fixed 1 ++ "% over " ++
    toString (probes name telemetry) ++ " probes")

/-- Why an enabled scope is demonstrably not being used, if it is not. -/
def unusedReason (name scope : String) (telemetry : Snapshot) (ctx : OptContext) : Option String :=
  if name = "auto_index" then indexReason scope telemetry ctx
  else if name = "result_cache" || name = "plan_cache" then cacheReason name telemetry
  else none

namespace AdaptiveDriver

def new : AdaptiveDriver :=
  { cycles := 0, lastChanged := ∅, retracted := ∅, costs := .new, pending := []
    memory := .new, stableCycles := 0, proposals := 0 }

/-- Start with estimates already corrected by earlier measurement. -/
def withModel (costs : CostModel) : AdaptiveDriver := { new with costs := costs }

def inCooldown (d : AdaptiveDriver) (k : Place) : Bool :=
  match d.lastChanged.get k with
  | some c => d.cycles < c + cooldownCycles
  | none => false

def recentlyRetracted (d : AdaptiveDriver) (k : Place) : Bool :=
  match d.retracted.get k with
  | some c => d.cycles < c + retractionCooldownCycles
  | none => false

/-- Fold a change that has had time to show an effect into the model. -/
def learnFrom (now : Metrics) (costs : CostModel) (p : Pending) : CostModel :=
  match Observation.between p.baseline now with
  | some obs => costs.record p.optimization obs
  | none => costs

def learn (d : AdaptiveDriver) (now : Metrics) : AdaptiveDriver :=
  let due (p : Pending) := p.appliedAt + observeAfterCycles ≤ d.cycles
  { d with
    costs := (d.pending.filter fun p => due p).foldl (learnFrom now) d.costs
    pending := d.pending.filter fun p => !due p }

/-- What the calibrated estimate of an optimization is worth now. -/
def scoreOf (d : AdaptiveDriver) (input : DriverInput) (name : String) : Score :=
  let profile := input.catalogue.profile name
  scoreAgainst profile.axisEffects (d.costs.calibrate name (profile.estimate input.ctx)) input.policy
    input.ctx.currentBytes

/-- One scope worth turning on. -/
def addition (d : AdaptiveDriver) (input : DriverInput) (name scope : String) :
    Option (Decision × F64) :=
  let k := place name scope
  if (input.current.params name scope).isSome || d.inCooldown k || d.recentlyRetracted k then none
  else
    let s := d.scoreOf input name
    if F64.lt s.total minScore then none
    else some (.propose name scope .enable
      ((input.catalogue.profile name).summary ++ "; " ++ s.describe), s.total)

/-- The scopes of one optimization worth turning on. One that cannot be undone is never
turned on automatically. -/
def additionsOf (d : AdaptiveDriver) (input : DriverInput) (opt : Optimization OptContext) :
    List (Decision × F64) :=
  let name := opt.metadata.name
  if !permittedBy opt.metadata input.policy.toPolicy then []
  else if !(opt.applicability input.ctx).isApplicable then []
  else if (input.catalogue.profile name).reversibility = .destructive then []
  else (opt.candidateScopes input.ctx).filterMap (d.addition input name)

/-- The scopes worth turning on, best first. -/
def additions (d : AdaptiveDriver) (input : DriverInput) : List (Decision × F64) :=
  (input.catalogue.registry.iter.flatMap (d.additionsOf input)).mergeSort
    fun a b => b.2.totalKey ≤ a.2.totalKey

/-- Whether an enabled scope is worth turning off. -/
def removal (d : AdaptiveDriver) (input : DriverInput) (k : Place) : Option (Decision × F64) :=
  let (name, scope) := ofLex k
  if d.inCooldown k then none
  else match input.catalogue.registry.info name with
  | none => none
  | some m =>
    match unusedReason name scope input.telemetry input.ctx with
    | some reason => some (.propose m.name scope .disable reason, .negInfinity)
    | none =>
      let s := d.scoreOf input m.name
      if F64.lt s.total keepScore then
        some (.propose m.name scope .disable
          ("no longer clears the bar that admitted it; " ++ s.describe), s.total)
      else none

/-- The scopes worth turning off, worst first. -/
def removals (d : AdaptiveDriver) (input : DriverInput) : List (Decision × F64) :=
  (input.current.entries.filterMap fun e => d.removal input e.1).mergeSort
    fun a b => a.2.totalKey ≤ b.2.totalKey

end AdaptiveDriver

namespace DriverInput

def untouchable (input : DriverInput) (d : Decision) : Bool :=
  input.underExperiment.any fun p => p.1 = d.optimization && p.2 = d.scope

def isPinned (input : DriverInput) (d : Decision) : Bool :=
  input.pinned.any fun p => p.1 = d.optimization && p.2 = d.scope

end DriverInput

/-- Recall reorders what is proposed, and says so. -/
def recallFirst (recalled : Option (OptimizationConfig × F64)) (additions : List (Decision × F64)) :
    List (Decision × F64) :=
  match recalled with
  | none => additions
  | some (cfg, similarity) =>
    let known (d : Decision) : Bool := (cfg.params d.optimization d.scope).isSome
    let noted := additions.map fun a =>
      if known a.1 then
        ({ a.1 with trigger := a.1.trigger ++ "; tried first — a workload " ++
          (F64.mul similarity (.ofInt 100)).fixed 0 ++ "% like this one used it" }, a.2)
      else a
    noted.mergeSort fun a b =>
      (known a.1 && !known b.1) || (known a.1 == known b.1 && b.2.totalKey ≤ a.2.totalKey)

def candidatesOf (registry : Registry OptContext) (additions : List (Decision × F64)) :
    List Candidate :=
  (additions.take maxExhaustive).filterMap fun a =>
    (registry.info a.1.optimization).map fun m =>
      { key := scopeKey a.1.optimization a.1.scope, name := m.name, metadata := m
        soloScore := a.2, ramBytes := 0 }

/-- The keys of the best combination, or of everything where there is none. -/
def pickedKeys (registry : Registry OptContext) (policy : Policy) (additions : List (Decision × F64)) :
    List String :=
  match bestCombination (candidatesOf registry additions) policy with
  | some c => c.keys
  | none => additions.map fun a => scopeKey a.1.optimization a.1.scope

namespace AdaptiveDriver

/-- The removals of a cycle. -/
def chooseRemovals (d : AdaptiveDriver) (input : DriverInput) : List Decision :=
  (((d.removals input).map (·.1)).filter fun x => !(input.untouchable x || input.isPinned x)).take
    maxChangesPerCycle

/-- The additions in the order they are tried in. -/
def ranked (d : AdaptiveDriver) (input : DriverInput) : List (Decision × F64) :=
  recallFirst (d.memory.recall (.of input.telemetry))
    ((d.additions input).filter fun a => !input.untouchable a.1)

/-- The additions of a cycle, as far as the removals leave room. -/
def chooseAdditions (d : AdaptiveDriver) (input : DriverInput) (room : ℕ) : List Decision :=
  let additions := d.ranked input
  if room = 0 || additions.isEmpty then []
  else
    let picked := pickedKeys input.catalogue.registry input.policy.toPolicy additions
    ((additions.map (·.1)).filter fun x => scopeKey x.optimization x.scope ∈ picked).take room

def choose (d : AdaptiveDriver) (input : DriverInput) : List Decision :=
  let removals := d.chooseRemovals input
  removals ++ d.chooseAdditions input (maxChangesPerCycle - removals.length)

/-- Remember the configuration once it has stopped moving. -/
def settle (d : AdaptiveDriver) (input : DriverInput) (chosen : List Decision) : AdaptiveDriver :=
  if chosen.isEmpty && d.pending.isEmpty then
    let stable := min (d.stableCycles + 1) (2 ^ 32 - 1)
    { d with
      stableCycles := stable
      memory := if stableCyclesBeforeRemembering ≤ stable then
        d.memory.remember (.of input.telemetry) input.current else d.memory }
  else { d with stableCycles := 0 }

/-- Note one decision made this cycle. -/
def note (now : Metrics) (d : AdaptiveDriver) (x : Decision) : AdaptiveDriver :=
  let d := { d with lastChanged := d.lastChanged.insert x.place d.cycles }
  match x.action with
  | .enable => { d with pending := d.pending ++ [⟨x.optimization, now, d.cycles⟩] }
  | .disable =>
    if evidenceBased x.trigger then { d with retracted := d.retracted.insert x.place d.cycles } else d
  | .retune => d

/-- The driver with one more cycle counted and its measurements taken. -/
def begun (d : AdaptiveDriver) (input : DriverInput) : AdaptiveDriver :=
  { d with cycles := d.cycles + 1 }.learn (metricsFrom input.telemetry input.ctx.currentBytes)

def decide (d : AdaptiveDriver) (input : DriverInput) : List Decision × AdaptiveDriver :=
  let now := metricsFrom input.telemetry input.ctx.currentBytes
  let d := d.begun input
  if input.telemetry.totalCalls < minObservations then ([], d)
  else
    let chosen := d.choose input
    let d := chosen.foldl (note now) (d.settle input chosen)
    (chosen, { d with proposals := d.proposals + chosen.length })

end AdaptiveDriver

end Adabt.Opt
