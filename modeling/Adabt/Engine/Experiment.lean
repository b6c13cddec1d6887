import Adabt.Library.Program
import Adabt.Opt.Experiment
import Adabt.Opt.Registry
import Adabt.Telemetry.Collector

/-! # An experiment with its evidence

What an experiment built is masked by a list of entries, each with the id of the
experiment it belongs to. The two latency populations of the phase under way are
kept apart and folded into what the judge looks at. -/

set_option autoImplicit false

namespace Adabt.Engine
open Adabt.Core Adabt.Indexing Adabt.Library Adabt.Opt Adabt.Telemetry

/-! ## The mask -/

structure Candidates where
  indexes : List (ℕ × String × String × IndexKind)
  columnStore : List (ℕ × String)
  direct : List (ℕ × String)
  deriving DecidableEq

namespace Candidates

def empty : Candidates := ⟨[], [], []⟩

/-- A collection that is masked already is not masked again. -/
def note (id : ℕ) (collection : String) (entries : List (ℕ × String)) : List (ℕ × String) :=
  if collection.isEmpty ∨ entries.any (fun e => e.2 = collection) then entries
  else entries ++ [(id, collection)]

/-- Note a structure that an experiment is about to build. -/
def record (c : Candidates) (id : ℕ) (action : Action) (forCollection : String) : Candidates :=
  match action with
  | .createIndex collection field kind =>
    { c with indexes := c.indexes ++ [(id, collection, field, kind)] }
  | .setColumnStore true => { c with columnStore := note id forCollection c.columnStore }
  | .setDirectLookup true => { c with direct := note id forCollection c.direct }
  | _ => c

/-- Drop everything one experiment contributed. -/
def forget (c : Candidates) (id : ℕ) : Candidates where
  indexes := c.indexes.filter fun e => e.1 ≠ id
  columnStore := c.columnStore.filter fun e => e.1 ≠ id
  direct := c.direct.filter fun e => e.1 ≠ id

def isEmpty (c : Candidates) : Bool :=
  c.indexes.isEmpty && c.columnStore.isEmpty && c.direct.isEmpty

/-- Whether nothing is masked for this experiment. -/
def isEmptyFor (c : Candidates) (id : ℕ) : Bool :=
  !(c.indexes.any fun e => e.1 = id) && !(c.columnStore.any fun e => e.1 = id) &&
    !(c.direct.any fun e => e.1 = id)

/-- The experiments that have an entry. -/
def owners (c : Candidates) : List ℕ :=
  c.indexes.map (·.1) ++ c.columnStore.map (·.1) ++ c.direct.map (·.1)

theorem isEmptyFor_iff {c : Candidates} {id : ℕ} : c.isEmptyFor id = true ↔ id ∉ c.owners := by
  simp only [isEmptyFor, owners, Bool.and_eq_true, Bool.not_eq_true', List.any_eq_false,
    decide_eq_true_eq, List.mem_append, List.mem_map, not_or, not_exists, not_and]

theorem mem_owners_forget {c : Candidates} {id other : ℕ} :
    other ∈ (c.forget id).owners ↔ other ∈ c.owners ∧ other ≠ id := by
  simp only [forget, owners, List.mem_append, List.mem_map, List.mem_filter, decide_eq_true_eq]
  constructor
  · rintro ((⟨e, ⟨he, hne⟩, rfl⟩ | ⟨e, ⟨he, hne⟩, rfl⟩) | ⟨e, ⟨he, hne⟩, rfl⟩)
    · exact ⟨.inl (.inl ⟨e, he, rfl⟩), hne⟩
    · exact ⟨.inl (.inr ⟨e, he, rfl⟩), hne⟩
    · exact ⟨.inr ⟨e, he, rfl⟩, hne⟩
  · rintro ⟨(⟨e, he, rfl⟩ | ⟨e, he, rfl⟩) | ⟨e, he, rfl⟩, hne⟩
    · exact .inl (.inl ⟨e, ⟨he, hne⟩, rfl⟩)
    · exact .inl (.inr ⟨e, ⟨he, hne⟩, rfl⟩)
    · exact .inr ⟨e, ⟨he, hne⟩, rfl⟩

theorem note_owners {id other : ℕ} {collection : String} {entries : List (ℕ × String)}
    (h : other ∈ entries.map (·.1)) : other ∈ (note id collection entries).map (·.1) := by
  rw [note]
  split_ifs
  · exact h
  · rw [List.map_append, List.mem_append]
    exact .inl h

/-- Recording hides one more structure and uncovers none. -/
theorem mem_owners_record {c : Candidates} {id other : ℕ} {action : Action} {collection : String}
    (h : other ∈ c.owners) : other ∈ (c.record id action collection).owners := by
  simp only [owners, List.mem_append] at h ⊢
  unfold record
  split
  · rw [List.map_append, List.mem_append]
    exact h.imp_left fun h => h.imp_left .inl
  · exact h.imp_left fun h => h.imp_right note_owners
  · exact h.imp_right note_owners
  · exact h

end Candidates

/-- Whether two experiments could see each other's traffic. -/
def scopesOverlap (a b : String) : Bool := a.isEmpty || b.isEmpty || a = b

/-! ## Paired runs -/

structure Trial where
  baselineNanos : ℕ
  candidateNanos : ℕ
  diverged : Bool
  deriving DecidableEq

/-- What the judge reads of many trials. -/
structure ShadowReport where
  divergences : ℕ
  last : Option Trial
  deriving DecidableEq

namespace ShadowReport

def empty : ShadowReport := ⟨0, none⟩

def record (r : ShadowReport) (t : Trial) : ShadowReport where
  divergences := if t.diverged then r.divergences + 1 else r.divergences
  last := some t

end ShadowReport

/-! ## Mid-flight -/

structure LiveExperiment where
  experiment : Experiment
  /-- Only queries against this collection take part; all do when it is empty. -/
  collection : String
  shadow : ShadowReport
  baseline : Histogram
  candidate : Histogram
  baselineErrors : ℕ
  candidateErrors : ℕ
  /-- Queries considered for routing so far. -/
  routed : ℕ
  ramBefore : ℕ
  deriving DecidableEq

namespace LiveExperiment

def new (id : ℕ) (decision : Decision) (collection : String) (g : Guardrails) : LiveExperiment where
  experiment := .new id decision g
  collection := collection
  shadow := .empty
  baseline := .new
  candidate := .new
  baselineErrors := 0
  candidateErrors := 0
  routed := 0
  ramBefore := 0

def phase (l : LiveExperiment) : Phase := l.experiment.phase

def setRamBefore (l : LiveExperiment) (bytes : ℕ) : LiveExperiment := { l with ramBefore := bytes }

/-- Each phase earns its own promotion. Divergences are not forgotten. -/
def resetMeasurements (l : LiveExperiment) : LiveExperiment :=
  { l with baseline := .new, candidate := .new, baselineErrors := 0, candidateErrors := 0 }

/-- Whether the next query is served by the candidate: this many of every hundred, evenly. -/
def route (l : LiveExperiment) (percent : ℕ) : Bool × LiveExperiment :=
  (l.routed * percent / 100 < (l.routed + 1) * percent / 100, { l with routed := l.routed + 1 })

def recordBaseline (l : LiveExperiment) (nanos : ℕ) (ok : Bool) : LiveExperiment :=
  { l with
    baseline := l.baseline.record nanos
    baselineErrors := if ok then l.baselineErrors else l.baselineErrors + 1 }

def recordCandidate (l : LiveExperiment) (nanos : ℕ) (ok : Bool) : LiveExperiment :=
  { l with
    candidate := l.candidate.record nanos
    candidateErrors := if ok then l.candidateErrors else l.candidateErrors + 1 }

/-- Fold the evidence into what the judge looks at. -/
def fold (l : LiveExperiment) (ramNow : ℕ) : LiveExperiment :=
  { l with experiment := { l.experiment with
      baseline :=
        { samples := l.baseline.count
          p50Nanos := l.baseline.percentile 50
          p99Nanos := l.baseline.percentile 99
          errors := l.baselineErrors
          ramBytes := 0 }
      candidate :=
        { samples := l.candidate.count
          p50Nanos := l.candidate.percentile 50
          p99Nanos := l.candidate.percentile 99
          errors := l.candidateErrors
          ramBytes := ramNow - l.ramBefore }
      divergences := l.shadow.divergences } }

/-! ## What happens to an experiment -/

inductive Event where
  | baseline (nanos : ℕ) (ok : Bool)
  | candidate (nanos : ℕ) (ok : Bool)
  | compared (trial : Trial)
  | routed
  | weighed (bytes : ℕ)
  | advance (ram : ℕ)
  | abort (why : String)
  deriving DecidableEq

/-- What the judge has before it when it is asked to advance. -/
def judged (l : LiveExperiment) (ram : ℕ) : Experiment := (l.fold ram).experiment.noteProgress

def advance (l : LiveExperiment) (ram : ℕ) : LiveExperiment :=
  { l.fold ram with experiment := (l.fold ram).experiment.advance }

/-- Entering a measuring phase measures afresh. -/
def settleIn (before after : LiveExperiment) : LiveExperiment :=
  if after.phase ≠ before.phase ∧ after.phase.isMeasuring then after.resetMeasurements else after

def step : Event → LiveExperiment → LiveExperiment
  | .baseline nanos ok, l => l.recordBaseline nanos ok
  | .candidate nanos ok, l => l.recordCandidate nanos ok
  | .compared trial, l => { l with shadow := l.shadow.record trial }
  | .routed, l => { l with routed := l.routed + 1 }
  | .weighed bytes, l => l.setRamBefore bytes
  | .advance ram, l => settleIn l (l.advance ram)
  | .abort why, l => { l with experiment := l.experiment.abort why }

end LiveExperiment

end Adabt.Engine
