import Adabt.Core.Hash
import Adabt.Exec.Run
import Adabt.Library.KeyTable

/-! # Joins

A join drives its left rows in order. The right rows of each come from an index
on the join field, probed once a row, or from a table of the right side built
beforehand. Both charge what they keep to the budget of the query. -/

set_option autoImplicit false

namespace Adabt.Core

namespace Value

mutual

/-- An `i128` beside a tag takes 32 bytes, and no other value more. -/
def approxSize : Value → ℕ
  | null | bool _ => 32
  | i64 _ | u64 _ | f64 _ | timestamp _ => 32 + 8
  | decimal _ _ => 32 + 17
  | str s => 32 + s.utf8ByteSize
  | bytes b => 32 + b.length
  | list items => 32 + approxSizeItems items
  | map m => 32 + approxSizeEntries m

def approxSizeItems : List Value → ℕ
  | [] => 0
  | v :: vs => approxSize v + approxSizeItems vs

def approxSizeEntries : List (String × Value) → ℕ
  | [] => 0
  | (k, v) :: es => k.utf8ByteSize + approxSize v + approxSizeEntries es

end

end Value

def Record.approxSize (rec : Record) : ℕ :=
  (rec.entries.map fun e => e.1.utf8ByteSize + e.2.1.approxSize).sum

end Adabt.Core

namespace Adabt.Exec
open Adabt.Core Adabt.Ir Adabt.Indexing Adabt.Library

/-! ## Budgets -/

structure ExecBudget where
  maxRamBytes : Option ℕ
  /-- What a poll of the flag finds once so many rows have been looked at. -/
  cancelled : ℕ → Bool

namespace ExecBudget

def unbounded : ExecBudget := ⟨none, fun _ => false⟩

def checkCancelled (b : ExecBudget) (looked : ℕ) : Result Unit :=
  if b.cancelled looked then .error (.error (.cancelled "execution was cancelled")) else .ok ()

def checkRam (b : ExecBudget) (used : ℕ) : Result Unit :=
  match b.maxRamBytes with
  | some limit =>
    if limit < used then
      .error (.error (.cancelled ("exceeded the query's memory budget of " ++ toString limit ++
        " bytes while buffering " ++ toString used)))
    else .ok ()
  | none => .ok ()

end ExecBudget

/-- How often a loop over rows polls for cancellation. -/
def cancelCheckInterval : ℕ := 4096

/-- Walk the rows, polling every so often; `looked` counts the rows before them. -/
def eachRow {α : Type} (budget : ExecBudget) (looked : ℕ) (body : α → Record → Result α) :
    ℕ → List Row → α → Result α
  | _, [], a => .ok a
  | i, row :: rows, a => do
    if i % cancelCheckInterval = 0 then budget.checkCancelled (looked + i)
    let a ← body a row.2
    eachRow budget looked body (i + 1) rows a

def chargeRows (budget : ExecBudget) : ℕ → List Row → Result Unit
  | _, [] => .ok ()
  | used, row :: rows => do
    budget.checkRam (used + row.2.approxSize)
    chargeRows budget (used + row.2.approxSize) rows

def collectRows (src : QuerySource) (budget : ExecBudget) (op : PhysicalOp) :
    Result (List Row) := do
  let rows ← execute src ⟨op, ""⟩
  chargeRows budget 0 rows
  return rows

/-! ## Joined rows -/

/-- The fields of a side, each under `collection.field`. -/
def prefixed (collection : String) (rec : Record) : List (String × OrdValue) :=
  rec.entries.map fun e => (collection ++ "." ++ e.1, e.2)

/-- An unmatched row has no right side, and its fields are absent. -/
def mergeJoinedFields (leftCollection : String) (left : Record)
    (right : Option (String × Record)) : Record :=
  let merged := (∅ : Record).insertAll (prefixed leftCollection left)
  match right with
  | some (rightCollection, right) => merged.insertAll (prefixed rightCollection right)
  | none => merged

structure JoinAccumulator where
  used : ℕ
  out : List Record

namespace JoinAccumulator

def new : JoinAccumulator := ⟨0, []⟩

def push (acc : JoinAccumulator) (budget : ExecBudget) (rec : Record) : Result JoinAccumulator := do
  let used := acc.used + rec.approxSize
  budget.checkRam used
  return ⟨used, acc.out ++ [rec]⟩

end JoinAccumulator

/-- What the two sides are and how their rows are matched. -/
structure Join where
  left : String
  right : String
  kind : JoinKind
  on : String × String

namespace Join

/-- The row a `Left` join still owes a left row without a match. -/
def owed (j : Join) (budget : ExecBudget) (left : Record) (acc : JoinAccumulator) :
    Result JoinAccumulator :=
  if j.kind = .left then acc.push budget (mergeJoinedFields j.left left none) else .ok acc

/-! ## With an index -/

/-- What the joins read of a source. -/
structure Source where
  fetch : String → RecordId → Result (Option Record)
  indexLookup : String → String → Value → Result (Option (List RecordId))

def fetchMatches (j : Join) (src : Source) (budget : ExecBudget) (left : Record) :
    List RecordId → JoinAccumulator × Bool → Result (JoinAccumulator × Bool)
  | [], s => .ok s
  | id :: ids, (acc, matched) => do
    match ← src.fetch j.right id with
    | some right =>
      let acc ← acc.push budget (mergeJoinedFields j.left left (some (j.right, right)))
      fetchMatches j src budget left ids (acc, true)
    | none => fetchMatches j src budget left ids (acc, matched)

/-- Probe the index for one left row. Nothing is null-filtered here: an index
holds no null. -/
def probeRow (j : Join) (src : Source) (budget : ExecBudget) (acc : JoinAccumulator)
    (left : Record) : Result JoinAccumulator :=
  match left.get j.on.1 with
  | none => j.owed budget left acc
  | some key => do
    let ids ← src.indexLookup j.right j.on.2 key.1
    let (acc, matched) ← j.fetchMatches src budget left (ascend (ids.getD [])) (acc, false)
    if matched then return acc else j.owed budget left acc

/-- `none` when there is no index to probe. The first left row with the field decides. -/
def indexedNestedLoop (j : Join) (lefts : List Row) (src : Source) (budget : ExecBudget) :
    Result (Option (List Record)) :=
  match lefts.findSome? fun r => r.2.get j.on.1 with
  | none => .ok none
  | some probeKey => do
    match ← src.indexLookup j.right j.on.2 probeKey.1 with
    | none => return none
    | some _ =>
      let acc ← eachRow budget 0 (j.probeRow src budget) 0 lefts .new
      return some acc.out

/-! ## With a table -/

/-- A position and its share of the slot. -/
def hashEntryBytes : ℕ := 40

/-- A null key joins nothing. -/
def key (field : String) (rec : Record) : Option OrdValue :=
  (rec.get field).filter fun v => !v.1.isNull

/-- A key of the table answers to another that feeds the hasher alike and equals it. -/
def sameKey (hash : Bytes → UInt64) (a b : OrdValue) : Bool :=
  hash a.1.hashBytes = hash b.1.hashBytes ∧ a.1.Eqv b.1

/-- File a right row. The table keeps the row for the position the source keeps. -/
def fileRow (j : Join) (hash : Bytes → UInt64) (budget : ExecBudget)
    (t : List (OrdValue × List Record) × ℕ) (right : Record) :
    Result (List (OrdValue × List Record) × ℕ) :=
  match key j.on.2 right with
  | some k => do
    budget.checkRam (t.2 + hashEntryBytes)
    return (KeyTable.file (sameKey hash) k right t.1, t.2 + hashEntryBytes)
  | none => .ok t

def pushMatches (j : Join) (budget : ExecBudget) (left : Record) :
    List Record → JoinAccumulator → Result JoinAccumulator
  | [], acc => .ok acc
  | right :: rights, acc => do
    let acc ← acc.push budget (mergeJoinedFields j.left left (some (j.right, right)))
    pushMatches j budget left rights acc

def probeTable (j : Join) (hash : Bytes → UInt64) (budget : ExecBudget)
    (table : List (OrdValue × List Record)) (acc : JoinAccumulator) (left : Record) :
    Result JoinAccumulator :=
  match (key j.on.1 left).bind fun k => KeyTable.find (sameKey hash) k table with
  | some (right :: rights) => j.pushMatches budget left (right :: rights) acc
  | _ => j.owed budget left acc

def hashJoin (j : Join) (hash : Bytes → UInt64) (lefts rights : List Row) (budget : ExecBudget) :
    Result (List Record) := do
  let (table, _) ← eachRow budget 0 (j.fileRow hash budget) 0 rights ([], 0)
  let acc ← eachRow budget rights.length (j.probeTable hash budget table) 0 lefts .new
  return acc.out

end Join

/-! ## The operator -/

def QuerySource.probed (src : QuerySource) : Join.Source :=
  ⟨src.fetch, fun collection field key => .ok (src.indexLookup collection field key)⟩

/-- Positions stand in for ids. -/
def batchFromRows (recs : List Record) : List Batch :=
  batchesOf (recs.zipIdx.map fun r => (Fin.ofNat _ r.2, r.1))

/-- A join of two plans over one collection each. Only a bare scan of the right
side may be passed over for its index. -/
def runJoin (src : QuerySource) (hash : Bytes → UInt64) (budget : ExecBudget) (j : Join)
    (left right : PhysicalOp) : Result (List Batch) := do
  budget.checkCancelled 0
  if j.left = j.right then
    .error (.error (.unsupported
      ("self-joins are not supported yet: both sides of the join read " ++ j.left)))
  else
    let lefts ← collectRows src budget left
    let found ← match right.heapScanned with
      | some _ => j.indexedNestedLoop lefts src.probed budget
      | none => .ok none
    match found with
    | some recs => return batchFromRows recs
    | none => do
      let rights ← collectRows src budget right
      let recs ← j.hashJoin hash lefts rights budget
      return batchFromRows recs

end Adabt.Exec
