import Adabt.Core.Arith
import Adabt.Opt.Driver

/-! # The judge of an experiment

The phases a change goes through before it is kept, the evidence each of them
demands, and the verdict on that evidence. Nothing is built and nothing is
measured here. -/

set_option autoImplicit false

namespace Adabt.Opt
open Adabt.Core

inductive Phase where
  | proposed
  | building
  | shadow
  | canary (percent : ℕ)
  | promoted
  | reverted
  deriving DecidableEq, Repr

namespace Phase

def asStr : Phase → String
  | proposed => "proposed"
  | building => "building"
  | shadow => "shadow"
  | canary _ => "canary"
  | promoted => "promoted"
  | reverted => "reverted"

def isTerminal : Phase → Bool
  | promoted | reverted => true
  | _ => false

/-- Whether queries in this phase are evidence. -/
def isMeasuring : Phase → Bool
  | shadow | canary _ => true
  | _ => false

/-- Fraction of the traffic served by the candidate. -/
def candidateTraffic : Phase → F64
  | canary p => F64.div (.ofInt p) (.ofInt 100)
  | promoted => .ofInt 1
  | _ => .ofInt 0

end Phase

def canarySteps : List ℕ := [1, 10, 50, 90, 100]

def minSamplesFloor : ℕ := 30

def p99MinSamples : ℕ := 100

def maxStalledAdvances : ℕ := 250

structure Measurement where
  samples : ℕ
  p50Nanos : ℕ
  p99Nanos : ℕ
  errors : ℕ
  ramBytes : ℕ
  deriving DecidableEq

def Measurement.default : Measurement := ⟨0, 0, 0, 0, 0⟩

structure Guardrails where
  maxP99Ratio : F64
  maxRamBytes : Option ℕ
  minSamples : ℕ
  maxEarlyP50Ratio : F64
  deriving DecidableEq

/-- Ratios of 1.1 and 1.5. -/
def Guardrails.default : Guardrails := ⟨⟨0x3ff199999999999a⟩, none, 1000, ⟨0x3ff8000000000000⟩⟩

inductive Assessment where
  | inconclusive
  | healthy
  | abort (why : String)
  deriving DecidableEq

def Assessment.debug : Assessment → String
  | inconclusive => "Inconclusive"
  | healthy => "Healthy"
  | abort why => "Abort(\"" ++ why ++ "\")"

structure Experiment where
  id : ℕ
  decision : Decision
  phase : Phase
  guardrails : Guardrails
  baseline : Measurement
  candidate : Measurement
  divergences : ℕ
  history : List Phase
  lastCandidateSamples : ℕ
  stalled : ℕ
  abortedBecause : Option String
  deriving DecidableEq

namespace Experiment

def new (id : ℕ) (decision : Decision) (guardrails : Guardrails) : Experiment where
  id := id
  decision := decision
  phase := .proposed
  guardrails := guardrails
  baseline := .default
  candidate := .default
  divergences := 0
  history := [.proposed]
  lastCandidateSamples := 0
  stalled := 0
  abortedBecause := none

def scale (g : Guardrails) (share : F64) : ℕ :=
  max (F64.mul (.ofInt g.minSamples) share).roundU64 minSamplesFloor

/-- Evidence demanded of the baseline and of the candidate, by the traffic each carries. -/
def requiredSamples (e : Experiment) : ℕ × ℕ :=
  -- Both paths answer every query in shadow.
  let candidateShare := if e.phase = .shadow then .ofInt 1 else e.phase.candidateTraffic
  let baselineShare :=
    if e.phase = .shadow then .ofInt 1 else F64.sub (.ofInt 1) e.phase.candidateTraffic
  (scale e.guardrails baselineShare, scale e.guardrails candidateShare)

def isStalled (e : Experiment) : Bool := maxStalledAdvances ≤ e.stalled

def enter (e : Experiment) (phase : Phase) : Experiment :=
  { e with phase := phase, history := e.history ++ [phase], stalled := 0, lastCandidateSamples := 0 }

/-- Bytes as millions, to one place. -/
def megabytes (bytes : ℕ) : String := (F64.div (.ofInt bytes) (.ofInt 1000000)).fixed 1

/-- How much a ratio is above one, in whole percent. -/
def percentOver (ratio : F64) : String :=
  (F64.mul (F64.sub ratio (.ofInt 1)) (.ofInt 100)).fixed 0

/-- Compare one statistic of the two paths with the largest tolerable ratio. -/
def regressed (what limitName : String) (samples candidate baseline : ℕ) (limit : F64) :
    Assessment :=
  let ratio := F64.div (.ofInt candidate) (.ofInt baseline)
  if 0 < baseline ∧ ratio.gt limit then
    .abort (what ++ " regressed " ++ percentOver ratio ++ "% over " ++ toString samples ++
      " candidate samples (" ++ limitName ++ " " ++ percentOver limit ++ "%)")
  else .healthy

/-- Judge the candidate against the baseline. -/
def assess (e : Experiment) : Assessment :=
  if 0 < e.divergences then
    .abort (toString e.divergences ++
      " result divergence(s): the candidate returned different rows")
  else if 0 < e.candidate.errors then
    .abort (toString e.candidate.errors ++ " errors on the candidate path")
  else match e.guardrails.maxRamBytes.filter (· < e.candidate.ramBytes) with
  | some most => .abort ("candidate used " ++ megabytes e.candidate.ramBytes ++ " MB against a " ++
      megabytes most ++ " MB limit")
  | none =>
    if e.isStalled then
      .abort ("no new evidence after " ++ toString maxStalledAdvances ++
        " attempts: the workload stopped exercising this change before it could be judged")
    else if e.candidate.samples < e.requiredSamples.2 ∨ e.baseline.samples < e.requiredSamples.1 then
      .inconclusive
    -- A tail is compared once both sides can support one, and the median before that.
    else if p99MinSamples ≤ e.candidate.samples ∧ p99MinSamples ≤ e.baseline.samples then
      regressed "p99" "limit" e.candidate.samples e.candidate.p99Nanos e.baseline.p99Nanos
        e.guardrails.maxP99Ratio
    else
      regressed "p50" "early limit" e.candidate.samples e.candidate.p50Nanos e.baseline.p50Nanos
        e.guardrails.maxEarlyP50Ratio

def abort (e : Experiment) (why : String) : Experiment :=
  if e.phase.isTerminal then e
  else { e with abortedBecause := some why }.enter .reverted

/-- Whether evidence arrived since the previous advance. -/
def noteProgress (e : Experiment) : Experiment :=
  if e.phase.isMeasuring then
    { e with
      stalled := if e.lastCandidateSamples < e.candidate.samples then 0 else e.stalled + 1
      lastCandidateSamples := e.candidate.samples }
  else e

/-- The phase after this one; none while the evidence is not enough. -/
def next (phase : Phase) (verdict : Assessment) : Option Phase :=
  match phase with
  | .proposed => some .building
  | .building => some .shadow
  | .shadow => if verdict = .healthy then some (.canary 1) else none
  | .canary p =>
    if verdict = .healthy then
      match canarySteps.find? (p < ·) with
      -- The whole traffic is no canary any more.
      | some 100 => some .promoted
      | some step => some (.canary step)
      | none => some .promoted
    else none
  | terminal => some terminal

/-- Advance one step, or abort. -/
def advance (e : Experiment) : Experiment :=
  if e.phase.isTerminal then e
  else
    let e := e.noteProgress
    match e.assess with
    | .abort why => e.abort why
    | verdict => match next e.phase verdict with
      | some phase => e.enter phase
      | none => e

/-- Why it ended, in one line. -/
def outcome (e : Experiment) : String :=
  match e.abortedBecause with
  | some why => why
  | none =>
    if e.phase = .promoted then "promoted"
    else e.phase.asStr ++ " (" ++ e.assess.debug ++ ")"

end Experiment

end Adabt.Opt
