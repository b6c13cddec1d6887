import Adabt.Engine.Database
import Adabt.Engine.ExprCodec
import Mathlib.Data.List.SplitOn

/-! # Declaring and checking indexes

An index is created over what a scan returns, and its definition is noted in the
store under its name. `verify` works out from the name what each index ought to
hold and lists where it does not. -/

set_option autoImplicit false

namespace Adabt.Indexing
open Adabt.Core Adabt.Ir Adabt.Library

/-- Every piece of a name between separators. -/
def splitAll (sep : Char) (name : String) : List String :=
  (name.toList.splitOn sep).map String.ofList

/-- An index that is told of some rows in turn. -/
def Index.ofRows (shape : IndexShape) (kind : IndexKind) (rows : List (RecordId × Record)) : Index :=
  rows.foldl (fun i r => i.indexRecord r.1 r.2) (new shape kind)

/-- A composite index is a hash map, whatever was asked for. -/
def IndexShape.kindFor (shape : IndexShape) (kind : IndexKind) : IndexKind :=
  match shape with
  | composite _ => .hash
  | _ => kind

end Adabt.Indexing

namespace Adabt.Engine
open Adabt.Core Adabt.Indexing Adabt.Ir Adabt.Library Adabt.Storage

/-- What `create_index_from` builds for a name. -/
def shapeOfName (name : String) : Except Error IndexShape :=
  match splitOnce partialSep name with
  | some (base, encoded) => do
    let condition ← decodeExprHex encoded
    return .partialIndex base condition encoded
  | none =>
    match splitOnce coverSep name with
    | some (base, rest) => .ok (.covering base (splitAll compositeSep rest))
    | none =>
      if compositeSep ∈ name.toList then .ok (.composite (splitAll compositeSep name))
      else .ok (.single name)

variable {δ : Type} (E : Env) (U : Upkeep δ)

namespace Database

def indexExists (db : Database δ) (collection name : String) (kind : IndexKind) : Bool :=
  (db.indexList collection).any fun i => i.field = name && i.kind = kind

def pushIndex (collection : String) (i : Index) (db : Database δ) : Database δ :=
  { db with indexes := db.indexes.insert collection (db.indexList collection ++ [i]) }

def requireCollection (collection : String) : DatabaseM δ Unit := do
  attempt (ensure ((← get).store.collections.contains collection) (.noSuchCollection collection))

/-- Build an index over what a scan returns, unless there is one by that name and kind. -/
def createIndexAs (collection name : String) (kind : IndexKind) (shape : Except Error IndexShape) :
    DatabaseM δ Unit := do
  requireCollection collection
  let db ← get
  if db.indexExists collection name kind then return ()
  else
    let shape ← attempt shape
    let rows ← attempt (Heap.scan E db.store collection)
    modify (pushIndex collection (.ofRows shape (shape.kindFor kind) rows))
    onStore (Heap.recordIndex E ⟨collection, name, kind.asStr⟩)

def createIndex (collection field : String) (kind : IndexKind) : DatabaseM δ Unit :=
  createIndexAs E collection field kind (shapeOfName field)

def createCompositeIndex (collection : String) (fields : List String) : DatabaseM δ Unit := do
  requireCollection collection
  attempt (ensure (2 ≤ fields.length) (.invalidOptimization
    "a composite index needs at least two fields; use create_index for one"))
  createIndexAs E collection (compositeName fields) .hash (.ok (.composite fields))

/-- The indexed field is always carried as well. -/
def carried (field : String) (covers : List String) : List String :=
  (covers ++ [field]).dedup.insertionSort (· ≤ ·)

def createCoveringIndex (collection field : String) (covers : List String) (kind : IndexKind) :
    DatabaseM δ Unit := do
  requireCollection collection
  attempt (ensure (covers ≠ []) (.invalidOptimization
    "a covering index must carry at least one field; use create_index for none"))
  createIndexAs E collection (coveringName field (carried field covers)) kind
    (.ok (.covering field (carried field covers)))

def createPartialIndex (collection field : String) (condition : Expr) (kind : IndexKind) :
    DatabaseM δ Unit := do
  requireCollection collection
  let encoded ← attempt (encodeExprHex condition)
  createIndexAs E collection (partialName field encoded) kind
    (.ok (.partialIndex field condition encoded))

def removeIndexes (collection name : String) (kind : IndexKind) (db : Database δ) : Database δ :=
  match db.indexes.get collection with
  | some list => { db with
      indexes := db.indexes.insert collection
        (list.filter fun i => !(i.field = name && i.kind = kind)) }
  | none => db

/-- Whether there was one; that its definition could not be forgotten is not an error. -/
def dropIndex (collection name : String) (kind : IndexKind) : DatabaseM δ Bool := fun db =>
  if db.indexExists collection name kind then
    let db := removeIndexes collection name kind db
    .ok true { db with store := exec (Heap.forgetIndex E ⟨collection, name, kind.asStr⟩) db.store }
  else .ok false db

def createCollection (name : String) (schema : Schema) : DatabaseM δ Unit := do
  onStore (Heap.createCollection E name schema)
  modify fun db => { db with derived := U.created name schema db.derived }

end Database

/-! ## Verifying -/

/-- The value a record has to be listed under, were it read field by field. -/
def probe (fields : List String) (rec : Record) : Option Value :=
  (filedValues rec fields).map fun
    | [v] => v
    | vs => .list vs

/-- What `verify` expects an index of this name to list a record under; `none`
when the condition in the name does not decode. -/
def expectedKey (name : String) : Option (Record → Option Value) :=
  if coverSep ∈ name.toList then some (probe [coveringBase name])
  else match splitOnce partialSep name with
    | some (base, encoded) =>
      (decodeExprHex encoded).toOption.map fun condition rec =>
        if condition.matches' rec then probe [base] rec else none
    | none =>
      if compositeSep ∈ name.toList then some (probe (splitAll compositeSep name))
      else some (probe [name])

inductive Problem where
  /-- The index holds an id that the heap has no record for. -/
  | dangling (name : String) (kind : IndexKind) (id : RecordId) (key : Value)
  | undecodable (name : String)
  /-- A record holds a key that the index does not list it under. -/
  | unlisted (name : String) (id : RecordId) (key : Value)

def danglingIn (rows : List (RecordId × Record)) (i : Index) : List Problem :=
  i.entries.flatMap fun e => (e.2.filter fun id => id ∉ rows.map (·.1)).map fun id =>
    .dangling i.field i.kind id e.1

def unlistedIn (rows : List (RecordId × Record)) (i : Index) : List Problem :=
  match expectedKey i.field with
  | none => [.undecodable i.field]
  | some key => rows.filterMap fun r => (key r.2).bind fun k =>
      if r.1 ∈ i.lookup k then none else some (.unlisted i.field r.1 k)

namespace Database

def collectionProblems (db : Database δ) (collection : String) : Except Error (List Problem) := do
  let rows ← Heap.scan E db.store collection
  return (db.indexList collection).flatMap fun i => danglingIn rows i ++ unlistedIn rows i

/-- The problems `verify` lists about indexes. -/
def indexProblems (db : Database δ) : Except Error (List Problem) := do
  let problems ← db.store.collectionNames.mapM (db.collectionProblems E)
  return problems.flatten

end Database

end Adabt.Engine
