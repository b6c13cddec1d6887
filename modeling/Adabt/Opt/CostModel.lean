import Adabt.Core.Arith
import Adabt.Library.Table
import Adabt.Opt.Registry
import Adabt.Telemetry.Collector

/-! # Estimates, measurements and scores

An estimate is corrected by what was measured of earlier changes, and collapsed to
one number under the priorities of a policy. -/

set_option autoImplicit false

namespace Adabt.Opt
open Adabt.Core Adabt.Library Adabt.Telemetry

structure BuildCost where
  estimatedSecs : F64
  online : Bool
  deriving DecidableEq

structure CostEstimate where
  p50Delta : F64
  p99Delta : F64
  throughputDelta : F64
  ramBytes : ℤ
  storageBytes : ℤ
  cpuFrac : F64
  build : BuildCost
  confidence : F64
  deriving DecidableEq

structure AxisEffects where
  speed : ℤ
  resources : ℤ
  freedom : ℤ
  deriving DecidableEq

structure Priorities where
  speed : ℕ
  resources : ℕ
  freedom : ℕ
  deriving DecidableEq

def Priorities.clamped (p : Priorities) : Priorities :=
  ⟨min p.speed 10, min p.resources 10, min p.freedom 10⟩

/-- A policy with how much each axis matters. -/
structure RankedPolicy extends Policy where
  priority : Priorities

/-! ## Measurements -/

structure Metrics where
  p50Nanos : ℕ
  p99Nanos : ℕ
  bytes : ℕ
  operations : ℕ
  deriving DecidableEq

def Metrics.isUsable (m : Metrics) : Bool := 0 < m.operations && 0 < m.p50Nanos

/-- The latency is that of the shape most time went to. -/
def metricsFrom (telemetry : Snapshot) (bytes : ℕ) : Metrics :=
  match telemetry.hottestShape with
  | some (_, stats) =>
    ⟨stats.latency.percentile 50, stats.latency.percentile 99, bytes, stats.calls⟩
  | none => ⟨0, 0, bytes, 0⟩

structure Observation where
  p50Ratio : F64
  p99Ratio : F64
  byteDelta : ℤ
  deriving DecidableEq

def Observation.between (before after : Metrics) : Option Observation :=
  if !before.isUsable || !after.isUsable then none
  else some
    { p50Ratio := F64.div (.ofInt after.p50Nanos) (.ofInt before.p50Nanos)
      p99Ratio := F64.div (.ofInt after.p99Nanos) (.ofInt before.p99Nanos)
      byteDelta := ((after.bytes : ℤ).bmod (2 ^ 64) - (before.bytes : ℤ).bmod (2 ^ 64)).bmod (2 ^ 64) }

structure CostModel where
  byOptimization : Table String (List Observation)

namespace CostModel

def new : CostModel := ⟨∅⟩

def record (m : CostModel) (optimization : String) (observation : Observation) : CostModel :=
  ⟨m.byOptimization.alter optimization [] (· ++ [observation])⟩

def observations (m : CostModel) (optimization : String) : List Observation :=
  (m.byOptimization.get optimization).getD []

def fullTrustAt : F64 := .ofInt 8

def maxLearnedConfidence : F64 := .lit 85 100

def mean (xs : List F64) : F64 := F64.div (F64.sum xs) (.ofInt xs.length)

/-- How much the observations disagree. -/
def spread (m : CostModel) (optimization : String) : F64 :=
  let ratios := (m.observations optimization).map (·.p50Ratio)
  if ratios.length < 2 then .zero
  else
    let mean := mean ratios
    let squares := ratios.map fun r => F64.mul (F64.sub r mean) (F64.sub r mean)
    F64.sqrt (F64.div (F64.sum squares) (.ofInt ratios.length))

/-- Correct an estimate with what has been measured. -/
def calibrate (m : CostModel) (optimization : String) (prior : CostEstimate) : CostEstimate :=
  let obs := m.observations optimization
  if obs.isEmpty then prior
  else
    let w := F64.min (F64.div (.ofInt obs.length) fullTrustAt) .one
    let blend (prior seen : F64) := F64.add (F64.mul prior (F64.sub .one w)) (F64.mul seen w)
    let p50 := blend prior.p50Delta (mean (obs.map (·.p50Ratio)))
    let agreement :=
      F64.clamp (F64.sub .one (F64.mul (m.spread optimization) (.ofInt 2))) .zero .one
    { prior with
      p50Delta := p50
      p99Delta := blend prior.p99Delta (mean (obs.map (·.p99Ratio)))
      throughputDelta := F64.div .one (F64.max p50 (.lit 1 1000000000))
      ramBytes := (blend (.ofInt prior.ramBytes) (mean (obs.map (.ofInt ·.byteDelta)))).castI64
      confidence := F64.max prior.confidence (F64.mul (F64.mul maxLearnedConfidence w) agreement) }

end CostModel

/-! ## Scores -/

structure Score where
  total : F64
  speedTerm : F64
  resourceTerm : F64
  freedomTerm : F64
  buildPenalty : F64
  confidence : F64
  deriving DecidableEq

def Score.describe (s : Score) : String :=
  "score " ++ s.total.fixed 2 ++ " (speed " ++ s.speedTerm.fixedSigned 2 ++ ", resources " ++
    s.resourceTerm.fixedSigned 2 ++ ", freedom " ++ s.freedomTerm.fixedSigned 2 ++ ", build " ++
    s.buildPenalty.neg.fixed 2 ++ ", confidence " ++
    (F64.mul s.confidence (.ofInt 100)).fixed 0 ++ "%)"

def minFootprintBytes : F64 := .ofInt 1048576

def buildSecsPerPoint : F64 := .ofInt 30

/-- Score an estimate against an explicit resource scale. -/
def scoreAgainst (effects : AxisEffects) (est : CostEstimate) (policy : RankedPolicy)
    (footprint : ℕ) : Score :=
  let p := policy.priority.clamped
  let gain (delta : F64) := F64.clamp (F64.sub .one delta) (.ofInt (-1)) .one
  let speedTerm := F64.mul (.ofInt p.speed)
    (F64.add (F64.mul (.lit 4 10) (gain est.p50Delta)) (F64.mul (.lit 6 10) (gain est.p99Delta)))
  let budget := match policy.constraints.maxRamBytes with
    | some b => F64.ofInt b
    | none => F64.max (.ofInt footprint) minFootprintBytes
  let cost := (est.ramBytes + est.storageBytes).bmod (2 ^ 64)
  let bytesSaved := F64.clamp (F64.div (.ofInt ((-cost).bmod (2 ^ 64))) budget) (.ofInt (-1)) .one
  let resourceTerm := F64.mul (.ofInt p.resources) (F64.sub bytesSaved est.cpuFrac)
  let freedomTerm := F64.mul (.ofInt p.freedom) (F64.div (.ofInt effects.freedom) (.ofInt 10))
  let build := F64.div est.build.estimatedSecs buildSecsPerPoint
  let buildPenalty := if est.build.online then build else F64.mul build (.ofInt 3)
  let raw := F64.sub (F64.add (F64.add speedTerm resourceTerm) freedomTerm) buildPenalty
  { total := F64.mul raw est.confidence
    speedTerm, resourceTerm, freedomTerm, buildPenalty
    confidence := est.confidence }

end Adabt.Opt
