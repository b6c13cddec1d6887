import Adabt.Exec.Rows
import Adabt.Indexing.Index
import Adabt.Ir.Reads

/-! # Where a query gets its data

The part of the database that execution reads: the records of each collection
and the structures derived from them. `none` from an index or a column store
means that it cannot answer, and never that nothing matched. -/

set_option autoImplicit false

/-! ## The columnar copy of a collection

Rows stand in the order they were appended, and a deleted row stays as a
tombstone. Every column has one cell for each row. -/

namespace Adabt.Exec
open Adabt.Core Adabt.Ir Adabt.Library

structure ColumnStore where
  /-- The id of every row, and whether the row is dead. -/
  rows : List (RecordId × Bool)
  columns : OrdMap String (List (Option OrdValue))

/-- One row's candidacy in a selection of the first few. -/
abbrev Candidate := RecordId × Option OrdValue

def candidateOrder (descending : Bool) (a b : Candidate) : Ordering :=
  (directed descending (compareField a.2 b.2)).then (compare a.1 b.1)

/-- What to accumulate over a column. -/
structure ColumnAgg where
  field : Option String
  countsRows : Bool

/-- What one cell adds to an accumulator of the columns. -/
def AggAcc.observe (acc : AggAcc) (countsRows : Bool) (v : Option OrdValue) : AggAcc :=
  if countsRows then acc.counted
  else match v with
    | none => acc
    | some v =>
      if v.1.isNull then acc
      else
        let acc := acc.counted.seen
        let acc := match asF64 v.1 with
          | some n => acc.summed n
          | none => acc
        (acc.lowered v).raised v

namespace ColumnStore

def cell (store : ColumnStore) (name : String) (row : ℕ) : Option OrdValue :=
  (store.columns.get name).bind fun col => (col[row]?).join

/-- Ids of the live rows with their positions, in row order. -/
def live (store : ColumnStore) : List (RecordId × ℕ) :=
  (store.rows.zipIdx.filter fun r => !r.1.2).map fun r => (r.1.1, r.2)

/-- The record a row holds under the named fields. -/
def assemble (store : ColumnStore) (fields : List String) (row : ℕ) : Record :=
  fields.foldl (fun rec f => match store.cell f row with
    | some v => rec.set f v
    | none => rec) ∅

/-- Read only the named fields, in record-id order. -/
def project (store : ColumnStore) (fields : List String) : List Row :=
  (sortBy (fun a b => compare a.1 b.1) store.live).map fun r => (r.1, store.assemble fields r.2)

/-- `none` when the store does not hold the field. -/
def topkIds (store : ColumnStore) (field : String) (descending : Bool) (k : ℕ) :
    Option (List RecordId) :=
  if store.columns.contains field then
    if k = 0 then some []
    else some ((selectFirst (candidateOrder descending) k
      (store.live.map fun r => (r.1, store.cell field r.2))).map (·.1))
  else none

def columnKey (store : ColumnStore) (groupBy : List String) (row : ℕ) : List OrdValue :=
  groupBy.map fun g => (store.cell g row).getD nullValue

/-- The predicate sees a record of the fields it reads, refilled for every row. -/
def admits (store : ColumnStore) (predicate : Option Expr) (row : ℕ) : Bool :=
  predicate.all fun p => p.matches' (store.assemble (p.referencedFields []) row)

def aggregate (store : ColumnStore) (groupBy : List String) (aggs : List ColumnAgg)
    (predicate : Option Expr) : Groups :=
  (store.live.filter fun r => store.admits predicate r.2).foldl (fun groups r =>
    upsertGroup (store.columnKey groupBy r.2) (aggs.map fun _ => .default)
      (fun accs => List.zipWith (fun a acc =>
        acc.observe a.countsRows (a.field.bind fun f => store.cell f r.2)) aggs accs) groups) []

/-- The live rows are the records, cell by cell. -/
structure Holds (store : ColumnStore) (records : OrdMap RecordId Record) : Prop where
  ids : (store.live.map (·.1)).Perm records.keys
  cells : ∀ r ∈ store.live, ∀ rec ∈ records.get r.1, ∀ name, store.cell name r.2 = rec.get name

end ColumnStore

end Adabt.Exec

/-! ## The source -/

namespace Adabt.Exec
open Adabt.Core Adabt.Ir Adabt.Indexing Adabt.Library

abbrev Result (α : Type) := Except Fault α

structure QuerySource where
  store : OrdMap String (OrdMap RecordId Record)
  indexes : OrdMap String (List Index)
  columns : OrdMap String ColumnStore

namespace QuerySource

def records (src : QuerySource) (collection : String) : Result (OrdMap RecordId Record) :=
  match src.store.get collection with
  | some records => .ok records
  | none => .error (.error (.noSuchCollection collection))

def indexList (src : QuerySource) (collection : String) : List Index :=
  (src.indexes.get collection).getD []

def fetch (src : QuerySource) (collection : String) (id : RecordId) : Result (Option Record) := do
  let records ← src.records collection
  return records.get id

def allIds (src : QuerySource) (collection : String) : Result (List RecordId) := do
  let records ← src.records collection
  return records.keys

/-- `none` for a row that does not exist, `some none` for one without the field. -/
def peekField (src : QuerySource) (collection : String) (id : RecordId) (field : String) :
    Result (Option (Option OrdValue)) := do
  let found ← src.fetch collection id
  return found.map (·.get field)

def fetchProjected (src : QuerySource) (collection : String) (id : RecordId)
    (fields : List String) : Result (Option Record) := do
  let found ← src.fetch collection id
  return found.map (·.project fields)

def columnAggs (aggs : List Agg) : List ColumnAgg :=
  aggs.map fun a => ⟨a.field, a.kind = .count ∧ a.field = none⟩

def columnAggregate (src : QuerySource) (collection : String) (groupBy : List String)
    (aggs : List Agg) (predicate : Option Expr) : Option (List Row) := do
  let store ← src.columns.get collection
  return groupRows groupBy aggs (store.aggregate groupBy (columnAggs aggs) predicate)

def columnScan (src : QuerySource) (collection : String) (fields : List String) :
    Option (List Row) := do
  let store ← src.columns.get collection
  return store.project fields

def columnTopk (src : QuerySource) (collection field : String) (descending : Bool) (k : ℕ) :
    Option (List RecordId) := do
  let store ← src.columns.get collection
  store.topkIds field descending k

/-- A low-cardinality bitmap when one answers to the name, else the first index
that does. -/
def lookupIndex (src : QuerySource) (collection field : String) : Option Index :=
  let candidates := (src.indexList collection).filter fun i => i.field = field
  (candidates.find? fun i => i.kind = .bitmap ∧ i.keyCount ≤ lowCardinalityKeyCount).or
    candidates.head?

def indexLookup (src : QuerySource) (collection field : String) (key : Value) :
    Option (List RecordId) :=
  (src.lookupIndex collection field).map (·.lookup key)

/-- The rows an index keeps beside the ids. An id without one is skipped. -/
def projections (i : Index) (ids : List RecordId) : List Row :=
  ids.filterMap fun id => (i.covered id).map fun rec => (id, rec)

def coversAll (i : Index) (field : String) (needed : List String) : Bool :=
  !i.covers.isEmpty && coveringBase i.field = field && needed.all (· ∈ i.covers)

def coveringIndex (src : QuerySource) (collection field : String) (needed : List String) :
    Option Index :=
  (src.indexList collection).find? fun i => coversAll i field needed

def coveringLookup (src : QuerySource) (collection field : String) (key : Value)
    (needed : List String) : Option (List Row) :=
  (src.coveringIndex collection field needed).map fun i => projections i (i.lookup key)

def coveringRangeIndex (src : QuerySource) (collection field : String) (needed : List String) :
    Option Index :=
  (src.indexList collection).find? fun i => i.kind.supportsRange && coversAll i field needed

def coveringRange (src : QuerySource) (collection field : String) (lo hi : Bound)
    (needed : List String) : Result (Option (List Row)) :=
  match src.coveringRangeIndex collection field needed with
  | none => .ok none
  | some i => do
    let ids ← i.range lo hi
    return ids.map (projections i)

def compositeIndex (src : QuerySource) (collection : String) (fields : List String) :
    Option Index :=
  (src.indexList collection).find? fun i => i.field = compositeName fields

def compositeLookup (src : QuerySource) (collection : String) (fields : List String)
    (key : Value) : Option (List RecordId) :=
  (src.compositeIndex collection fields).map (·.lookup key)

def rangeIndex (src : QuerySource) (collection field : String) : Option Index :=
  (src.indexList collection).find? fun i => i.field = field && i.kind.supportsRange

def indexRange (src : QuerySource) (collection field : String) (lo hi : Bound) :
    Result (Option (List RecordId)) :=
  match src.rangeIndex collection field with
  | none => .ok none
  | some i => i.range lo hi

/-- The indexes and the column store of a collection hold its records. -/
structure Holds (src : QuerySource) : Prop where
  indexes : ∀ collection, ∀ i ∈ src.indexList collection,
    ∃ records, src.store.get collection = some records ∧ i.Holds records
  columns : ∀ collection store, src.columns.get collection = some store →
    ∃ records, src.store.get collection = some records ∧ store.Holds records

end QuerySource

end Adabt.Exec
