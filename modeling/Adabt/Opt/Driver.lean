import Adabt.Library.Undo
import Adabt.Opt.Registry

/-! # The manual driver

It resolves a level and the overrides on top of it into a target, compares the
target with the configuration, and proposes what brings the two in line. -/

set_option autoImplicit false

/-! ## Optimization levels

A level is a preset: it resolves into a configuration, and later entries of the
preset win. -/

namespace Adabt.Opt
open Adabt.Library

structure LevelEntry where
  optimization : String
  scope : String
  params : List (String × ℤ)

def entry (optimization : String) (params : List (String × ℤ)) : LevelEntry :=
  ⟨optimization, "global", params⟩

/-- Cumulative: everything this level and every lower level enables. -/
def levelPreset (level : ℕ) : List LevelEntry :=
  (if 1 ≤ level then
    [entry "plan_cache" [("entries", 512)], entry "result_cache" [("entries", 256)]] else []) ++
  (if 2 ≤ level then
    [entry "auto_index" [("min_rows", 1000), ("min_queries", 8)],
      entry "record_compression" []] else []) ++
  (if 3 ≤ level then
    [entry "plan_cache" [("entries", 4096)], entry "result_cache" [("entries", 4096)],
      entry "buffer_pool" [("pages", 8192)], entry "prefetch" []] else []) ++
  (if 4 ≤ level then
    [entry "column_store" [], entry "delta_encoding" [], entry "materialized_view" []] else []) ++
  (if 5 ≤ level then
    [entry "auto_composite_index" [], entry "auto_covering_index" [],
      entry "clustered_sort" []] else []) ++
  (if 6 ≤ level then [entry "join_order" [], entry "data_partitioning" []] else []) ++
  (if 8 ≤ level then [entry "freeze_schema" []] else []) ++
  (if 9 ≤ level then [entry "thread_per_core" []] else []) ++
  (if 10 ≤ level then [entry "direct_lookup" []] else [])

def configForLevel (level : ℕ) : OptimizationConfig :=
  (levelPreset level).foldl (fun cfg e => cfg.enable e.optimization e.scope (.ofList e.params)) .new

/-- A level enables an optimization everywhere or not at all. -/
theorem configForLevel_scope (level : ℕ) {name scope : String} (h : scope ≠ "global") :
    (configForLevel level).params name scope = none := by
  have hscope : ∀ e ∈ levelPreset level, e.scope = "global" := by
    intro e he
    simp only [levelPreset, List.mem_append] at he
    rcases he with (((((((he | he) | he) | he) | he) | he) | he) | he) | he <;>
      split at he <;> simp [entry] at he <;> grind
  have hlook : Overwrites (fun (cfg : OptimizationConfig) (e : LevelEntry) =>
      cfg.enable e.optimization e.scope (.ofList e.params)) (·.params name scope)
      (fun e => name = e.optimization ∧ scope = e.scope) fun e => some (.ofList e.params) :=
    { hit := fun c e he => by rw [OptimizationConfig.params_enable, if_pos he]
      miss := fun c e he => by rw [OptimizationConfig.params_enable, if_neg he] }
  exact hlook.untouched (fun e he hs => h (hs.2.trans (hscope e he))) .new

end Adabt.Opt

/-! ## The driver -/

namespace Adabt.Opt
open Adabt.Core Adabt.Library

inductive DecisionAction where
  | enable
  | disable
  | retune
  deriving DecidableEq, Repr

def DecisionAction.asStr : DecisionAction → String
  | enable => "enable"
  | disable => "disable"
  | retune => "retune"

structure Decision where
  optimization : String
  scope : String
  action : DecisionAction
  params : Params
  trigger : String
  deriving DecidableEq

variable {Ctx : Type}

namespace ManualDriver

def applyOverride (target : OptimizationConfig) (ov : Override) : OptimizationConfig :=
  if ov.enabled then target.enable ov.name ov.scope (.ofList ov.params)
  else target.disable ov.name ov.scope

/-- An override that names a place takes the blanket entry of the level away. -/
def clearBlanket (target : OptimizationConfig) (ov : Override) : OptimizationConfig :=
  if ov.scope ≠ "global" then target.disable ov.name "global" else target

def targetOf (level : ℕ) (overrides : List Override) : OptimizationConfig :=
  overrides.foldl applyOverride (overrides.foldl clearBlanket (configForLevel level))

/-- Where a request for an optimization at one scope is carried out. -/
def expand (opt : Optimization Ctx) (ctx : Ctx) (scope : String) : List String :=
  if opt.metadata.scopeKind = .global ∨ scope ≠ "global" then [scope]
  else opt.candidateScopes ctx

def enables (r : Registry Ctx) (ctx : Ctx) (level : ℕ) (target : OptimizationConfig) (k : Place) :
    List Decision :=
  let (name, scope) := ofLex k
  match r.get name with
  | none => []
  | some opt => (expand opt ctx scope).map fun s =>
    { optimization := opt.metadata.name
      scope := s
      action := .enable
      params := (target.params name scope).getD .new
      trigger := "level " ++ toString level ++ " preset" }

def disables (r : Registry Ctx) (level : ℕ) (k : Place) : List Decision :=
  let (name, scope) := ofLex k
  match r.info name with
  | none => []
  | some m =>
    [{ optimization := m.name
       scope := scope
       action := .disable
       params := .new
       trigger := "not part of level " ++ toString level }]

def retunes (r : Registry Ctx) (level : ℕ) (target : OptimizationConfig) (k : Place) :
    List Decision :=
  let (name, scope) := ofLex k
  match r.info name with
  | none => []
  | some m =>
    [{ optimization := m.name
       scope := scope
       action := .retune
       params := (target.params name scope).getD .new
       trigger := "level " ++ toString level ++ " tuning" }]

def decide (r : Registry Ctx) (current : OptimizationConfig) (mode : Mode) (ctx : Ctx) :
    List Decision :=
  match mode with
  | .adaptive => []
  | .manual level overrides =>
    let target := targetOf level overrides
    let diff := current.diff target
    diff.added.flatMap (enables r ctx level target) ++
      diff.removed.flatMap (disables r level) ++
      diff.retuned.flatMap (retunes r level target)

end ManualDriver

/-- What an applied decision does to the configuration. -/
def OptimizationConfig.carryOut (c : OptimizationConfig) (d : Decision) : OptimizationConfig :=
  match d.action with
  | .enable => c.enable d.optimization d.scope d.params
  | .retune => c.enable d.optimization d.scope d.params
  | .disable => c.disable d.optimization d.scope

end Adabt.Opt
