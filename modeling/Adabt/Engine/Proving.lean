import Adabt.Engine.Experiment
import Adabt.Opt.Controller

/-! # Proving changes against live traffic

The database as far as experiments touch it: those that run, the mask, which
experiment is being built and which one the current query is evidence for. The
physical actions, the planner and what is stored are the workings around it. -/

set_option autoImplicit false

namespace Adabt.Engine.Proving
open Adabt.Core Adabt.Library Adabt.Opt

inductive QueryMode where
  | normal
  | trial
  | served
  deriving DecidableEq

/-- The rest of the database, with a state of its own. -/
structure Workings (Ctx σ Q R : Type) where
  registry : Registry Ctx
  collectionNames : σ → List String
  derivedMemoryBytes : σ → ℕ
  /-- Gather what the optimizer needs. -/
  optInputs : EStateM Error σ (Policy × Ctx)
  applyAction : Action → EStateM Error σ Unit
  canApply : Action → σ → Bool × σ
  collectionOf : Q → String
  /-- Answer a query past a mask, except for the one experiment that is revealed. -/
  queryIn : QueryMode → Option Candidates → Option ℕ → Q → EStateM Error σ R

structure Database (σ : Type) where
  controller : OptimizationController
  /-- Oldest first. -/
  experiments : List LiveExperiment
  finished : List LiveExperiment
  nextExperimentId : ℕ
  hidden : Candidates
  candidateVisible : Bool
  recordingCandidate : Option ℕ
  underTest : Option ℕ
  rest : σ

variable {Ctx σ Q R α : Type}

abbrev DbM (σ : Type) := EStateM Error (Database σ)

/-- A database without experiments. -/
def Database.opened (controller : OptimizationController) (rest : σ) : Database σ where
  controller := controller
  experiments := []
  finished := []
  nextExperimentId := 1
  hidden := .empty
  candidateVisible := false
  recordingCandidate := none
  underTest := none
  rest := rest

def onRest (x : EStateM Error σ α) : DbM σ α := fun db =>
  match x db.rest with
  | .ok a rest => .ok a { db with rest := rest }
  | .error e rest => .error e { db with rest := rest }

namespace Database

def find (db : Database σ) (id : ℕ) : Option LiveExperiment :=
  db.experiments.find? fun l => l.experiment.id = id

/-- Change the first experiment with an id. -/
def revise (id : ℕ) (f : LiveExperiment → LiveExperiment) : List LiveExperiment → List LiveExperiment
  | [] => []
  | l :: ls => if l.experiment.id = id then f l :: ls else l :: revise id f ls

def update (db : Database σ) (id : ℕ) (f : LiveExperiment → LiveExperiment) : Database σ :=
  { db with experiments := revise id f db.experiments }

def masked (db : Database σ) : Option Candidates :=
  if db.hidden.isEmpty then none else some db.hidden

/-- The one experiment whose candidate this query may see. -/
def revealed (db : Database σ) : Option ℕ := if db.candidateVisible then db.underTest else none

/-- The experiment that a query on this collection is evidence for. -/
def experimentFor (db : Database σ) (collection : String) : Option ℕ :=
  (db.experiments.find? fun l =>
    l.phase.isMeasuring && (l.collection.isEmpty || l.collection = collection)).map
      (·.experiment.id)

end Database

variable (E : Workings Ctx σ Q R)

/-! ## Building and taking back -/

/-- Recorded as it happens, so that what is masked is what was built. -/
def applyAction (action : Action) : DbM σ Unit := do
  modify fun db => match db.recordingCandidate with
    | some id =>
      let forCollection := ((db.find id).map (·.collection)).getD ""
      { db with hidden := db.hidden.record id action forCollection }
    | none => db
  onRest (E.applyAction action)

def canApply (action : Action) (db : Database σ) : Bool × Database σ :=
  match E.canApply action db.rest with
  | (possible, rest) => (possible, { db with rest := rest })

def actionSink : ActionSink (Database σ) := ⟨applyAction E, canApply E⟩

/-- The controller is moved aside for the call. -/
def runDecisions (decisions : List Decision) (inputs : Policy × Ctx) : DbM σ ApplyReport :=
  fun db =>
  if decisions.isEmpty then .ok ⟨[], []⟩ db
  else
    match apply ⟨E.registry, inputs.1, inputs.2⟩ (actionSink E) ⟨[], []⟩ decisions
        ⟨db.controller, { db with controller := .new }⟩ with
    | .ok report s => .ok report { s.sink with controller := s.controller }
    | .error e s => .error e { s.sink with controller := s.controller }

/-- End one experiment, keeping or undoing what it built. -/
def retireExperiment (id : ℕ) (why : String) (promoted : Bool) : DbM σ Unit := do
  match (← get).find id with
  | none => return ()
  | some live =>
    modify fun db =>
      { db with experiments := db.experiments.eraseP fun l => l.experiment.id = id }
    if !promoted && !(← get).hidden.isEmptyFor id then
      let d := live.experiment.decision
      let undo : Decision :=
        { d with
          action := .disable
          trigger := "experiment #" ++ toString id ++ " reverted: " ++ why }
      let inputs ← onRest E.optInputs
      let _ ← runDecisions E [undo] inputs
    modify fun db =>
      { db with
        hidden := db.hidden.forget id
        candidateVisible := false
        underTest := none
        finished := db.finished ++ [live] }

/-- Stop one experiment and undo whatever it built. -/
def abortExperimentById (id : ℕ) (why : String) : DbM σ Unit := do
  modify fun db => db.update id fun l => { l with experiment := l.experiment.abort why }
  retireExperiment E id why false

/-- Why an experiment that was built is not worth running. -/
def refusalOf (report : ApplyReport) : String :=
  if report.rejected.isEmpty then
    "the change built nothing that can be held beside the current representation"
  else
    "the controller refused it (" ++ String.intercalate "; "
      (report.rejected.map fun r => r.1 ++ ": " ++ r.2.asStr) ++ ")"

/-- Stop recording, whichever way the program ended. -/
def unrecorded (x : DbM σ α) : DbM σ α := fun db =>
  match x db with
  | .ok a db => .ok a { db with recordingCandidate := none }
  | .error e db => .error e { db with recordingCandidate := none }

/-- Put the decision of an experiment through the controller, recording what it builds. -/
def runTrial (id : ℕ) (d : Decision) : DbM σ ApplyReport := do
  -- Mask first, build second.
  modify fun db => { db with candidateVisible := false, recordingCandidate := some id }
  let inputs ← onRest E.optInputs
  let trial : Decision :=
    { d with trigger := "trialled by experiment #" ++ toString id ++ ": " ++ d.trigger }
  unrecorded (runDecisions E [trial] inputs)

/-- Build one experiment's candidate where the planner cannot see it. -/
def buildCandidate (id : ℕ) : DbM σ Unit := do
  let db ← get
  match db.find id with
  | none => return ()
  | some live =>
    let ramBefore := E.derivedMemoryBytes db.rest
    modify fun db => db.update id (·.setRamBefore ramBefore)
    let report ← runTrial E id live.experiment.decision
    if !report.rejected.isEmpty || (← get).hidden.isEmptyFor id then
      abortExperimentById E id (refusalOf report)

def enterPhase (id : ℕ) (phase : Phase) : DbM σ Unit := do
  if phase.isMeasuring then
    modify fun db => db.update id (·.resetMeasurements)
  match phase with
  | .building => buildCandidate E id
  | .promoted => retireExperiment E id "promoted" true
  | .reverted => do
    let why := (((← get).find id).map (·.experiment.outcome)).getD "reverted"
    retireExperiment E id why false
  | _ => return ()

/-! ## The calls -/

/-- Let the machine of one experiment act on the evidence so far. -/
def advanceOne (id : ℕ) : DbM σ (Option Phase) := do
  let db ← get
  match db.find id with
  | none => return none
  | some live =>
    let live' := live.advance (E.derivedMemoryBytes db.rest)
    set (db.update id fun _ => live')
    if live'.phase ≠ live.phase then enterPhase E id live'.phase
    return some live'.phase

def advanceEach : List ℕ → DbM σ (List (ℕ × Phase))
  | [] => return []
  | id :: ids => do
    match ← advanceOne E id with
    | none => advanceEach ids
    | some phase => return (id, phase) :: (← advanceEach ids)

def advanceExperiments : DbM σ (List (ℕ × Phase)) := do
  advanceEach E ((← get).experiments.map (·.experiment.id))

/-- Stop every running experiment. -/
def abortExperiment (why : String) : DbM σ Unit := do
  forEach (fun id => abortExperimentById E id why) ((← get).experiments.map (·.experiment.id))

/-- Which collection's queries count as evidence; every one's, when the scope names none. -/
def candidateCollection (names : List String) (scope : String) : String :=
  let first := String.ofList (scope.toList.takeWhile (· ≠ '.'))
  if first ∈ names then first else ""

/-- Why two experiments cannot run at once. -/
def clashText (clash : LiveExperiment) (collection : String) : String :=
  let where_ := if collection.isEmpty then "globally" else "on " ++ collection
  let covered := if clash.collection.isEmpty then "every collection" else clash.collection
  "experiment #" ++ toString clash.experiment.id ++ " already covers the same traffic (" ++ covered ++
    "), so running one " ++ where_ ++ " too would make each measure the other"

/-- Begin proving a change. -/
def beginExperiment (d : Decision) (g : Guardrails) : DbM σ ℕ := do
  if d.action ≠ .enable then
    throw (.invalidOptimization ("only an enable can be experimented on, not a " ++ d.action.asStr))
  let inputs ← onRest E.optInputs
  match E.registry.get d.optimization with
  | none => throw (.invalidOptimization (d.optimization ++ " is not registered"))
  | some opt =>
    let plan := opt.planEnable inputs.2 d.scope d.params
    if plan.apply.isEmpty then
      throw (.invalidOptimization (d.optimization ++ " has nothing to do for " ++ d.scope))
    match plan.apply.find? fun a => !a.isShadowable with
    | some bad => throw (.invalidOptimization (d.optimization ++ " cannot be experimented on: " ++
        bad.describe ++ " leaves no old path to compare against"))
    | none =>
      let db ← get
      let collection := candidateCollection (E.collectionNames db.rest) d.scope
      match db.experiments.find? fun l => scopesOverlap l.collection collection with
      | some clash => throw (.invalidOptimization (clashText clash collection))
      | none =>
        let id := db.nextExperimentId
        set { db with
          nextExperimentId := id + 1
          experiments := db.experiments ++ [LiveExperiment.new id d collection g] }
        return id

/-! ## Queries -/

/-- What a clock shows of the one or two runs of a query. -/
structure Clock where
  first : ℕ
  second : ℕ

def queryIn (mode : QueryMode) (q : Q) : DbM σ R := fun db =>
  onRest (E.queryIn mode db.masked db.revealed q) db

/-- Answer with a candidate that may be seen, or not, and hide it again. -/
def queryPast (visible : Bool) (mode : QueryMode) (q : Q) : DbM σ R := fun db =>
  match queryIn E mode q { db with candidateVisible := visible } with
  | .ok rows db => .ok rows { db with candidateVisible := false }
  | .error e db => .error e { db with candidateVisible := false }

/-- Run one query both ways and compare. -/
def trial [DecidableEq R] (q : Q) (clock : Clock) : DbM σ (R × Trial) := do
  let base ← queryPast E false .trial q
  let cand ← queryPast E true .trial q
  return (base, ⟨clock.first, clock.second, base ≠ cand⟩)

/-- The two timings of the last pair, attributed to the two paths. -/
def recordPair (ok : Bool) (live : LiveExperiment) : LiveExperiment :=
  match live.shadow.last with
  | some t => (live.recordBaseline t.baselineNanos ok).recordCandidate t.candidateNanos ok
  | none => live

/-- Time a query that was served by one of the two paths. -/
def recordServed (useCandidate : Bool) (nanos : ℕ) (ok : Bool) (live : LiveExperiment) :
    LiveExperiment :=
  if useCandidate then live.recordCandidate nanos ok else live.recordBaseline nanos ok

/-- An experiment is taken out for the duration of a query and put back where it was. -/
def Database.putBack (db : Database σ) (live : LiveExperiment) : Database σ :=
  { db.update live.experiment.id fun _ => live with underTest := none }

/-- Route one query according to the phase its experiment is in. -/
def experimentQuery [DecidableEq R] (q : Q) (clock : Clock) : DbM σ R := fun db =>
  match (db.experimentFor (E.collectionOf q)).bind db.find with
  | none => queryIn E .normal q db
  | some live =>
    let db := { db with underTest := some live.experiment.id }
    match live.phase with
    -- Both paths, same query, same state; the caller receives the baseline.
    | .shadow => match trial E q clock db with
      | .ok (rows, t) db =>
        .ok rows (db.putBack (recordPair true { live with shadow := live.shadow.record t }))
      | .error e db => .error e (db.putBack (recordPair false live))
    | .canary percent =>
      let (useCandidate, live) := live.route percent
      match queryPast E useCandidate .served q db with
      | .ok rows db => .ok rows (db.putBack (recordServed useCandidate clock.first true live))
      | .error e db => .error e (db.putBack (recordServed useCandidate clock.first false live))
    | _ => match queryIn E .normal q db with
      | .ok rows db => .ok rows (db.putBack live)
      | .error e db => .error e (db.putBack live)

/-! ## What each experiment hears -/

inductive Call (Q σ : Type) where
  | begin (d : Decision) (g : Guardrails)
  | query (q : Q) (clock : Clock)
  | advance (id : ℕ)
  | abort (id : ℕ) (why : String)
  /-- Anything else that happens to the rest of the database. -/
  | meanwhile (f : σ → σ)

def call [DecidableEq R] : Call Q σ → Database σ → Database σ
  | .begin d g => exec (beginExperiment E d g)
  | .query q clock => exec (experimentQuery E q clock)
  | .advance id => exec (advanceOne E id)
  | .abort id why => exec (abortExperimentById E id why)
  | .meanwhile f => fun db => { db with rest := f db.rest }

/-- The evidence of one query, for the experiment it counts for. -/
def evidence [DecidableEq R] (q : Q) (clock : Clock) (live : LiveExperiment) (db : Database σ) :
    List LiveExperiment.Event :=
  let db := { db with underTest := some live.experiment.id }
  match live.phase with
  | .shadow => match trial E q clock db with
    | .ok (_, t) _ =>
      [.compared t, .baseline t.baselineNanos true, .candidate t.candidateNanos true]
    -- The pair before it is recorded once more, as failed.
    | .error _ _ => match live.shadow.last with
      | some t => [.baseline t.baselineNanos false, .candidate t.candidateNanos false]
      | none => []
  | .canary percent =>
    let useCandidate := (live.route percent).1
    let ok := match queryPast E useCandidate .served q db with
      | .ok _ _ => true
      | .error _ _ => false
    [.routed, if useCandidate then .candidate clock.first ok else .baseline clock.first ok]
  | _ => []

/-- What building a candidate tells its experiment. -/
def built (live : LiveExperiment) (db : Database σ) : List LiveExperiment.Event :=
  let id := live.experiment.id
  let ramBefore := E.derivedMemoryBytes db.rest
  .weighed ramBefore ::
    match runTrial E id live.experiment.decision (db.update id (·.setRamBefore ramBefore)) with
    | .ok report db =>
      if !report.rejected.isEmpty || db.hidden.isEmptyFor id then [.abort (refusalOf report)] else []
    | .error _ _ => []

/-- What the experiment with this id goes through in a call. -/
def heard [DecidableEq R] (id : ℕ) (c : Call Q σ) (db : Database σ) : List LiveExperiment.Event :=
  match c with
  | .query q clock =>
    match (db.experimentFor (E.collectionOf q)).bind db.find with
    | some live => if live.experiment.id = id then evidence E q clock live db else []
    | none => []
  | .advance i =>
    match db.find id with
    | some live =>
      if i = id then
        let ram := E.derivedMemoryBytes db.rest
        let live' := live.advance ram
        .advance ram :: if live'.phase ≠ live.phase ∧ live'.phase = .building then
          built E live' (db.update id fun _ => live') else []
      else []
    | none => []
  | .abort i why => if i = id ∧ (db.find id).isSome then [.abort why] else []
  | _ => []

/-- What it goes through in a run. -/
def log [DecidableEq R] (id : ℕ) : Database σ → List (Call Q σ) → List LiveExperiment.Event
  | _, [] => []
  | db, c :: cs => heard E id c db ++ log id (call E c db) cs

end Adabt.Engine.Proving
