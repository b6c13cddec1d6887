import Adabt.Exec.QuerySource
import Adabt.Indexing.Index
import Adabt.Ir.Plan
import Adabt.Ir.Vm

/-! # Execution

Operators consume and produce batches. Ids from an index are sorted and
deduplicated before their records are fetched; rows that come out of an index or
a column store are passed on in the order they come. -/

set_option autoImplicit false

/-! ## Physical plans

A physical plan names how each step happens. A plan over one collection has no
join in it. -/

namespace Adabt.Exec
open Adabt.Core Adabt.Ir Adabt.Indexing

inductive PhysicalOp where
  | getById (collection : String) (id : RecordId)
  | getByIds (collection : String) (ids : List RecordId)
  | heapScan (collection : String)
  | columnScan (collection : String) (fields : List String)
  | indexLookup (collection field : String) (kind : IndexKind) (key : Value)
  | columnarTopK (collection key : String) (descending : Bool) (k : ℕ)
  | indexRange (collection field : String) (lo hi : Bound)
  | coveringLookup (collection field : String) (key : Value) (needed : List String)
  | coveringRange (collection field : String) (needed : List String) (lo hi : Bound)
  | compositeLookup (collection : String) (fields : List String) (key : Value)
  | filter (input : PhysicalOp) (predicate : Expr)
  | project (input : PhysicalOp) (fields : List String)
  | sort (input : PhysicalOp) (keys : List SortKey)
  | limit (input : PhysicalOp) (n : ℕ)
  | aggregate (input : PhysicalOp) (groupBy : List String) (aggs : List Agg)

structure PhysicalPlan where
  root : PhysicalOp
  rationale : String

namespace PhysicalOp

/-- The collection of a plain scan of the heap. -/
def heapScanned : PhysicalOp → Option String
  | heapScan collection => some collection
  | _ => none

/-- A columnar scan, optionally under one filter, that an aggregate can be
pushed into. -/
def columnarInput : PhysicalOp → Option (String × Option Expr)
  | columnScan collection _ => some (collection, none)
  | filter (columnScan collection _) predicate => some (collection, some predicate)
  | _ => none

end PhysicalOp

end Adabt.Exec

/-! ## Running a plan -/

namespace Adabt.Exec
open Adabt.Core Adabt.Ir Adabt.Indexing Adabt.Library

abbrev Batch := List Row

/-- `BATCH_SIZE`. -/
def batchSize : ℕ := 1024

/-- Fill a batch row by row and start another when it is full. -/
def batchesFrom (current : Batch) : List Row → List Batch
  | [] => if current.isEmpty then [] else [current]
  | row :: rest =>
    let current := current ++ [row]
    if batchSize ≤ current.length then current :: batchesFrom [] rest else batchesFrom current rest

def batchesOf (rows : List Row) : List Batch := batchesFrom [] rows

def fetchRows (src : QuerySource) (collection : String) : List RecordId → Result (List Row)
  | [] => .ok []
  | id :: ids => do
    let found ← src.fetch collection id
    let rest ← fetchRows src collection ids
    match found with
    | some rec => return (id, rec) :: rest
    | none => return rest

/-- Fetch a set of ids into batches, in id order, skipping ids that no longer
exist. -/
def fetchBatches (src : QuerySource) (collection : String) (ids : List RecordId) :
    Result (List Batch) := do
  let rows ← fetchRows src collection (ascend ids)
  return batchesOf rows

def scanBatches (src : QuerySource) (collection : String) : Result (List Batch) := do
  let ids ← src.allIds collection
  fetchBatches src collection ids

/-- The ids an index gave, or all of them when there is no such index. -/
def fetchOrScan (src : QuerySource) (collection : String) : Option (List RecordId) →
    Result (List Batch)
  | some ids => fetchBatches src collection ids
  | none => scanBatches src collection

def passes (program : Program) (rec : Record) : Bool := (program.run rec).isTrue

/-- A record with at most the one field. -/
def probe (field : String) : Option OrdValue → Record
  | some v => (∅ : Record).set field v
  | none => ∅

def survivorsByPeek (src : QuerySource) (collection field : String) (program : Program) :
    List RecordId → Result (List RecordId)
  | [] => .ok []
  | id :: ids => do
    let peeked ← src.peekField collection id field
    let rest ← survivorsByPeek src collection field program ids
    -- No row is no candidate.
    return if peeked.any fun value => passes program (probe field value) then id :: rest else rest

/-- Decide every row from one field and fetch the survivors whole. -/
def filterByPeek (src : QuerySource) (collection field : String) (program : Program) :
    Result (List Batch) := do
  let ids ← src.allIds collection
  let survivors ← survivorsByPeek src collection field program ids
  fetchBatches src collection survivors

def survivorsByFields (src : QuerySource) (collection : String) (fields : List String)
    (program : Program) : List RecordId → Result (List RecordId)
  | [] => .ok []
  | id :: ids => do
    let probe ← src.fetchProjected collection id fields
    let rest ← survivorsByFields src collection fields program ids
    return if probe.any (passes program) then id :: rest else rest

def filterByPeekFields (src : QuerySource) (collection : String) (fields : List String)
    (program : Program) : Result (List Batch) := do
  let ids ← src.allIds collection
  let survivors ← survivorsByFields src collection fields program ids
  fetchBatches src collection survivors

def filterBatches (program : Program) (batches : List Batch) : List Batch :=
  (batches.map fun b => b.filter fun r => passes program r.2).filter fun b => !b.isEmpty

/-- The loop of `Limit`, with the rows taken so far. -/
def limitBatches (n taken : ℕ) : List Batch → List Batch
  | [] => []
  | b :: rest =>
    if n ≤ taken then []
    else
      let b := b.take (n - taken)
      b :: limitBatches n (taken + b.length) rest

def projectRows (fields : List String) (rows : List Row) : List Row :=
  rows.map fun r => (r.1, r.2.project fields)

/-- The winners of a top-K, fetched whole and kept in the order of the answer. -/
def runTopK (src : QuerySource) (collection key : String) (descending : Bool) (k : ℕ) :
    Result (List Batch) :=
  let keys : List SortKey := [⟨key, descending⟩]
  match src.columnTopk collection key descending k with
  | some ids => do
    let rows ← fetchRows src collection ids
    return batchesOf rows
  | none => match src.columnScan collection [key] with
    | some rows => do
      let rows ← fetchRows src collection ((topK rows keys k).map (·.1))
      return batchesOf rows
    | none => do
      let batches ← scanBatches src collection
      return batchesOf ((sortRows keys batches.flatten).take k)

def run (src : QuerySource) : PhysicalOp → Result (List Batch)
  | .getById collection id => do
    match ← src.fetch collection id with
    | some rec => return [[(id, rec)]]
    | none => return []
  | .getByIds collection ids => fetchBatches src collection ids
  | .heapScan collection => scanBatches src collection
  | .columnScan collection fields => match src.columnScan collection fields with
    | some rows => .ok (batchesOf rows)
    | none => scanBatches src collection
  | .columnarTopK collection key descending k => runTopK src collection key descending k
  | .indexLookup collection field _ key =>
    fetchOrScan src collection (src.indexLookup collection field key)
  | .coveringLookup collection field key needed =>
    match src.coveringLookup collection field key needed with
    | some rows => .ok (batchesOf rows)
    | none => fetchOrScan src collection (src.indexLookup collection field key)
  | .coveringRange collection field needed lo hi => do
    match ← src.coveringRange collection field lo hi needed with
    | some rows => return batchesOf rows
    | none => fetchOrScan src collection (← src.indexRange collection field lo hi)
  | .compositeLookup collection fields key =>
    fetchOrScan src collection (src.compositeLookup collection fields key)
  | .indexRange collection field lo hi => do
    fetchOrScan src collection (← src.indexRange collection field lo hi)
  | .filter input predicate =>
    let program := Program.compile predicate
    match input.heapScanned, predicate.referencedFields [] with
    | some collection, [field] => filterByPeek src collection field program
    | some collection, f :: g :: more =>
      if more.length ≤ 2 then filterByPeekFields src collection (f :: g :: more) program
      else filterBatches program <$> run src input
    | _, _ => filterBatches program <$> run src input
  | .project input fields => (·.map (projectRows fields)) <$> run src input
  | .limit input n => limitBatches n 0 <$> run src input
  | .sort input keys => (fun batches => batchesOf (sortRows keys batches.flatten)) <$> run src input
  | .aggregate input groupBy aggs =>
    match input.columnarInput.bind fun p => src.columnAggregate p.1 groupBy aggs p.2 with
    | some rows => .ok [rows]
    | none => (fun batches => [aggregate batches.flatten groupBy aggs]) <$> run src input

/-- Run a plan to completion. -/
def execute (src : QuerySource) (plan : PhysicalPlan) : Result (List Row) :=
  List.flatten <$> run src plan.root

end Adabt.Exec
