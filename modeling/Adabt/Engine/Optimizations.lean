import Adabt.Core.Arith
import Adabt.Opt.Controller

/-! # Per-field optimizations

Two optimizations whose scope is a field: an index on it, and the placement of
records by it. Each says what enabling it does and what takes that back, the
same two actions whatever the engine holds. -/

set_option autoImplicit false

namespace Adabt.Engine
open Adabt.Core Adabt.Indexing Adabt.Library Adabt.Opt

/-- How often queries filtered on a field, and how often for equality. -/
structure Snapshot where
  fieldFilters : OrdMap (String ×ₗ String) ℕ
  equalityFilters : OrdMap (String ×ₗ String) ℕ

namespace Snapshot

/-- Fraction of the filters on a field that were equality predicates. -/
def equalityFraction (t : Snapshot) (collection field : String) : Option F64 := do
  let total ← t.fieldFilters.get (toLex (collection, field))
  let total := F64.ofInt total
  if total.isZero then none
  else some (F64.div (.ofInt ((t.equalityFilters.get (toLex (collection, field))).getD 0)) total)

def rangeCount (t : Snapshot) (collection field : String) : ℕ :=
  (t.fieldFilters.get (toLex (collection, field))).getD 0 -
    (t.equalityFilters.get (toLex (collection, field))).getD 0

/-- Most often first, then by name. -/
def mostRangeFilteredFields (t : Snapshot) : List (String × String × ℕ) :=
  let counted := t.fieldFilters.keys.map fun k =>
    ((ofLex k).1, (ofLex k).2, t.rangeCount (ofLex k).1 (ofLex k).2)
  (counted.filter fun e => 0 < e.2.2).mergeSort fun a b =>
    b.2.2 < a.2.2 ∨ (a.2.2 = b.2.2 ∧ toLex (a.1, a.2.1) ≤ toLex (b.1, b.2.1))

end Snapshot

structure OptContext where
  telemetry : Snapshot
  collections : List (String × ℕ)
  filteredFields : List (String × String × ℕ)
  existingIndexes : List (String × String × IndexKind)

namespace OptContext

def rowsIn (ctx : OptContext) (collection : String) : ℕ :=
  ((ctx.collections.find? fun e => e.1 = collection).map (·.2)).getD 0

def hasIndex (ctx : OptContext) (collection field : String) : Bool :=
  ctx.existingIndexes.any fun e => e.1 = collection ∧ e.2.1 = field

end OptContext

/-- Split `collection.field`; a scope that names no field is none. -/
def splitScope (scope : String) : Option (String × String) :=
  match scope.toList.span (· ≠ '.') with
  | (_, []) => none
  | (c, _ :: f) =>
    if c.isEmpty || f.isEmpty then none else some (String.ofList c, String.ofList f)

def indexKindOfOrdinal (n : ℤ) : Option IndexKind :=
  if n = 0 then some .hash else if n = 1 then some .btree else if n = 2 then some .bitmap else none

def indexKindParam (params : Params) : Option IndexKind :=
  (params.values.get "kind").bind indexKindOfOrdinal

/-- 0.8. -/
def mostlyEquality : F64 := ⟨0x3fe999999999999a⟩

/-- A hash index cannot answer a range. -/
def indexKindFor (ctx : OptContext) (collection field : String) : IndexKind :=
  match ctx.telemetry.equalityFraction collection field with
  | some f => if mostlyEquality.canon ≤ f.canon then .hash else .btree
  | none => .hash

/-- The sum of the rows of these collections, times the bytes a row takes, as an `i64`. -/
def rowBytes (ctx : OptContext) (candidates : List (String × String)) (bytes : ℕ) : ℤ :=
  Opt.wrap ((candidates.map fun c => ctx.rowsIn c.1).sum * bytes)

def perField (name : String) : OptMeta where
  name := name
  scopeKind := .perField
  requiresGuarantees := .any
  prerequisites := []
  conflictsWith := []

/-- The last of the entries counted most often. -/
def mostFiltered (fields : List (String × String × ℕ)) : Option (String × String × ℕ) :=
  fields.foldl (fun best e =>
    match best with
    | none => some e
    | some b => if e.2.2 < b.2.2 then some b else some e) none

/-! ## Automatic indexing -/

namespace AutoIndexOpt

def minRowsForIndex : ℕ := 1000

def minQueriesForIndex : ℕ := 8

/-- Filtered often enough, on a collection big enough, and not indexed already. -/
def candidates (ctx : OptContext) : List (String × String) :=
  (ctx.filteredFields.filter fun e => minQueriesForIndex ≤ e.2.2 ∧
    minRowsForIndex ≤ ctx.rowsIn e.1 ∧ !ctx.hasIndex e.1 e.2.1).map fun e => (e.1, e.2.1)

/-- Why there is no candidate. -/
def detail (ctx : OptContext) : String :=
  match mostFiltered ctx.filteredFields with
  | some (c, f, n) =>
    if ctx.hasIndex c f then c ++ "." ++ f ++ " is already indexed"
    else if n < minQueriesForIndex then c ++ "." ++ f ++ " filtered only " ++ toString n ++
      " times, below the " ++ toString minQueriesForIndex ++ " needed"
    else c ++ " holds " ++ toString (ctx.rowsIn c) ++ " rows, below the " ++
      toString minRowsForIndex ++ " at which an index pays"
  | none => "no candidate fields"

def applicability (ctx : OptContext) : Applicability :=
  if ctx.filteredFields.isEmpty then .notYet "no queries have filtered on any field yet"
  else if (candidates ctx).isEmpty then .notYet (detail ctx)
  else .applicable

/-- A kind that was asked for wins over the guess. -/
def planEnable (ctx : OptContext) (scope : String) (params : Params) : ChangePlan :=
  match splitScope scope with
  | none => .empty
  | some (collection, field) =>
    let kind := (indexKindParam params).getD (indexKindFor ctx collection field)
    ⟨[.createIndex collection field kind], [.dropIndex collection field kind]⟩

def planDisable (ctx : OptContext) (scope : String) (_ : Params) : ChangePlan :=
  match splitScope scope with
  | none => .empty
  | some (collection, field) =>
    let kind := ((ctx.existingIndexes.find? fun e => e.1 = collection ∧ e.2.1 = field).map
      (·.2.2)).getD (indexKindFor ctx collection field)
    ⟨[.dropIndex collection field kind], []⟩

end AutoIndexOpt

def autoIndexOpt : Optimization OptContext where
  metadata := perField "auto_index"
  applicability := AutoIndexOpt.applicability
  candidateScopes ctx := (AutoIndexOpt.candidates ctx).map fun e => e.1 ++ "." ++ e.2
  ramBytes ctx := rowBytes ctx (AutoIndexOpt.candidates ctx) 64
  planEnable := AutoIndexOpt.planEnable
  planDisable := AutoIndexOpt.planDisable

/-! ## Clustered placement -/

namespace ClusteredSortOpt

def minRowsForCluster : ℕ := 5000

def minQueriesForCluster : ℕ := 10

def candidates (ctx : OptContext) : List (String × String) :=
  (ctx.telemetry.mostRangeFilteredFields.filter fun e => minQueriesForCluster ≤ e.2.2 ∧
    minRowsForCluster ≤ ctx.rowsIn e.1 ∧
    ctx.filteredFields.any fun g => g.1 = e.1 ∧ g.2.1 = e.2.1).map fun e => (e.1, e.2.1)

def applicability (ctx : OptContext) : Applicability :=
  match ctx.telemetry.mostRangeFilteredFields with
  | [] => .notYet "no query has used a range predicate yet"
  | (c, f, n) :: _ =>
    if (candidates ctx).isEmpty then
      if n < minQueriesForCluster then .notYet (c ++ "." ++ f ++ " ranged only " ++ toString n ++
        " times, below the " ++ toString minQueriesForCluster ++ " needed")
      else .notYet (c ++ " holds " ++ toString (ctx.rowsIn c) ++ " rows, below the " ++
        toString minRowsForCluster ++ " at which clustering pays")
    else .applicable

def planEnable (_ : OptContext) (scope : String) (_ : Params) : ChangePlan :=
  match splitScope scope with
  | none => .empty
  | some (collection, field) =>
    ⟨[.setClusterField collection field], [.clearClusterField collection]⟩

def planDisable (_ : OptContext) (scope : String) (_ : Params) : ChangePlan :=
  match splitScope scope with
  | none => .empty
  | some (collection, _) => ⟨[.clearClusterField collection], []⟩

end ClusteredSortOpt

def clusteredSortOpt : Optimization OptContext where
  metadata := perField "clustered_sort"
  applicability := ClusteredSortOpt.applicability
  candidateScopes ctx := (ClusteredSortOpt.candidates ctx).map fun e => e.1 ++ "." ++ e.2
  ramBytes _ := 0
  planEnable := ClusteredSortOpt.planEnable
  planDisable := ClusteredSortOpt.planDisable

/-! ## What their actions move -/

/-- The indexes and the clustering hints of a database, and the collections it has. -/
structure Arrangement where
  collections : List String
  indexes : List (String × String × IndexKind)
  clusterFields : OrdMap String String
  deriving DecidableEq

namespace Arrangement

def createIndex (collection field : String) (kind : IndexKind) : EStateM Error Arrangement Unit := do
  let s ← get
  if collection ∉ s.collections then throw (.noSuchCollection collection)
  -- An index that exists already is left as it is.
  else if (collection, field, kind) ∈ s.indexes then return ()
  else set { s with indexes := s.indexes ++ [(collection, field, kind)] }

def dropIndex (collection field : String) (kind : IndexKind) : EStateM Error Arrangement Unit :=
  modify fun s => { s with indexes := s.indexes.filter fun i => i ≠ (collection, field, kind) }

def declareClusterField (collection field : String) : EStateM Error Arrangement Unit := do
  let s ← get
  if collection ∉ s.collections then throw (.noSuchCollection collection)
  else set { s with clusterFields := s.clusterFields.insert collection field }

def clearClusterField (collection : String) : EStateM Error Arrangement Unit := do
  let s ← get
  if collection ∉ s.collections then throw (.noSuchCollection collection)
  else set { s with clusterFields := s.clusterFields.erase collection }

/-- The database as a sink, as far as the two optimizations drive it. -/
def actionSink : ActionSink Arrangement where
  applyAction
    | .createIndex collection field kind => createIndex collection field kind
    | .dropIndex collection field kind => dropIndex collection field kind
    | .setClusterField collection field => declareClusterField collection field
    | .clearClusterField collection => clearClusterField collection
    | _ => return ()
  canApply
    | .createIndex collection _ _, s => (collection ∈ s.collections, s)
    | .dropIndex collection _ _, s => (collection ∈ s.collections, s)
    | _, s => (true, s)

end Arrangement

end Adabt.Engine
