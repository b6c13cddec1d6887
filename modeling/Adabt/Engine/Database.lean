import Adabt.Indexing.Index
import Adabt.Storage.Contents
import Mathlib.Data.Prod.Lex

/-! # The database

A store, the indexes over it and the unique constraints that they enforce. Every
write checks the constraints, goes to the store and then to the indexes. The
structures that only queries read (direct arrays, column stores, views) are kept
by calls that cannot fail, and stand here for whatever they are. -/

set_option autoImplicit false

namespace Adabt.Engine
open Adabt.Core Adabt.Indexing Adabt.Library Adabt.Storage

/-- How the structures that only queries read follow the writes. -/
structure Upkeep (δ : Type) where
  created : String → Schema → δ → δ
  inserted : String → RecordId → Record → δ → δ
  removed : String → RecordId → Record → δ → δ
  /-- A delete that had no need of the old record. -/
  forgotten : String → RecordId → δ → δ
  watches : String → δ → Bool

/-- No structure but the indexes is kept. -/
def Upkeep.none : Upkeep Unit where
  created := fun _ _ => id
  inserted := fun _ _ _ => id
  removed := fun _ _ _ => id
  forgotten := fun _ _ => id
  watches := fun _ _ => false

structure Database (δ : Type) where
  store : Heap
  indexes : OrdMap String (List Index)
  /-- Ascending pairs of collection and field. -/
  uniqueConstraints : List (String × String)
  clusterFields : OrdMap String String
  derived : δ
  /-- The policy asks for `Consistency::Strict`. -/
  strict : Bool

abbrev DatabaseM (δ : Type) := EStateM Error (Database δ)

variable {δ α : Type}

/-- Carry out a call of the store. -/
def onStore (x : HeapM α) : DatabaseM δ α := fun db =>
  match x db.store with
  | .ok a h => .ok a { db with store := h }
  | .error e h => .error e { db with store := h }

@[simp] theorem post_onStore (x : HeapM α) (db : Database δ) (Q : α → Database δ → Prop)
    (R : Error → Database δ → Prop) : Post (onStore x) db Q R ↔
      Post x db.store (fun a h => Q a { db with store := h }) fun e h =>
        R e { db with store := h } := by
  unfold Post onStore
  cases x db.store with
  | ok a h => rfl
  | error e h => rfl

namespace Database

variable (E : Env) (U : Upkeep δ)

def indexList (db : Database δ) (collection : String) : List Index :=
  (db.indexes.get collection).getD []

/-! ## Unique constraints -/

/-- Every constrained field of a collection. -/
def uniqueOn (db : Database δ) (collection : String) : List String :=
  (db.uniqueConstraints.filter (·.1 = collection)).map (·.2)

/-- The first index that answers to the name of the field. -/
def uniqueIndex (db : Database δ) (collection field : String) : Option Index :=
  (db.indexList collection).find? (·.field = field)

/-- Without an index nothing is in the way. -/
def holders (db : Database δ) (collection field : String) (value : Value) : List RecordId :=
  ((db.uniqueIndex collection field).map (·.lookup value)).getD []

def conflicts (db : Database δ) (collection : String) (exclude : Option RecordId) (rec : Record)
    (field : String) : Bool :=
  match filedValue rec field with
  | none => false
  | some value => (db.holders collection field value).any fun id => some id ≠ exclude

def checkUniqueConstraints (db : Database δ) (collection : String) (exclude : Option RecordId)
    (rec : Record) : Except Error Unit :=
  checkAll (fun field => ensure (db.conflicts collection exclude rec field = false)
    (.uniqueViolation collection field)) (db.uniqueOn collection)

/-! ## Upkeep -/

/-- Change every index of a collection that has any. -/
def editIndexes (collection : String) (f : Index → Index) (indexes : OrdMap String (List Index)) :
    OrdMap String (List Index) :=
  match indexes.get collection with
  | some list => indexes.insert collection (list.map f)
  | none => indexes

def reindexInsert (collection : String) (id : RecordId) (rec : Record) (db : Database δ) :
    Database δ :=
  { db with
    indexes := editIndexes collection (·.indexRecord id rec) db.indexes
    derived := U.inserted collection id rec db.derived }

def reindexRemove (collection : String) (id : RecordId) (rec : Record) (db : Database δ) :
    Database δ :=
  { db with
    indexes := editIndexes collection (·.unindexRecord id rec) db.indexes
    derived := U.removed collection id rec db.derived }

def forget (collection : String) (id : RecordId) (db : Database δ) : Database δ :=
  { db with derived := U.forgotten collection id db.derived }

/-- Whether a write has to read what it is about to overwrite. -/
def needsOldRecord (db : Database δ) (collection : String) : Bool :=
  !(db.indexList collection).isEmpty || U.watches collection db.derived

def oldRecord (collection : String) (id : RecordId) : DatabaseM δ (Option Record) := do
  let db ← get
  if db.needsOldRecord U collection then attempt (Heap.getRecord E db.store collection id)
  else return none

/-! ## Writes -/

def clusterKey (field : String) (rec : Record) : Option Int64 :=
  match rec.get field with
  | some ⟨.i64 v, _⟩ => some v
  | some ⟨.u64 v, _⟩ => if v.toNat < 2 ^ 63 then some v.toInt64 else none
  | _ => none

def insert (collection : String) (id : RecordId) (rec : Record) : DatabaseM δ Unit := do
  let stored := normalizeForStorage rec
  let db ← get
  attempt (db.checkUniqueConstraints collection none stored)
  match (db.clusterFields.get collection).bind fun f => clusterKey f rec with
  | some key => onStore (Heap.insertKeyed E collection id rec key)
  | none => onStore (Heap.insert E collection id rec)
  modify (reindexInsert U collection id stored)

/-- Two rows of a batch may not share a constrained value either. -/
def checkBatch (db : Database δ) (collection : String) :
    List (String × Value) → List Record → Except Error Unit
  | _, [] => .ok ()
  | seen, rec :: rest => do
    db.checkUniqueConstraints collection none rec
    let brought := (db.uniqueOn collection).filterMap fun f => (filedValue rec f).map fun v => (f, v)
    checkAll (fun b => ensure (¬ seen.any fun s => s.1 = b.1 && sameKey .hash s.2 b.2)
      (.uniqueViolation collection b.1)) brought
    checkBatch db collection (seen ++ brought) rest

def insertBatch (collection : String) (records : List (RecordId × Record)) : DatabaseM δ ℕ := do
  let normalized := records.map fun r => (r.1, normalizeForStorage r.2)
  let db ← get
  if db.uniqueConstraints.isEmpty then pure ()
  else attempt (db.checkBatch collection [] (normalized.map (·.2)))
  let n ← onStore (Heap.insertBatch E collection records)
  forEach (fun r => modify (reindexInsert U collection r.1 r.2)) normalized
  return n

/-- Take the old record out of the indexes, if it was read, and put the new one in. -/
def reindexUpdate (collection : String) (id : RecordId) (old : Option Record) (stored : Record)
    (db : Database δ) : Database δ :=
  reindexInsert U collection id stored (match old with
    | some old => reindexRemove U collection id old db
    | none => db)

def update (collection : String) (id : RecordId) (rec : Record) : DatabaseM δ Bool := do
  let old ← oldRecord E U collection id
  let stored := normalizeForStorage rec
  attempt ((← get).checkUniqueConstraints collection (some id) stored)
  let existed ← onStore (Heap.update E collection id rec)
  modify (reindexUpdate U collection id old stored)
  return existed

def reindexDelete (collection : String) (id : RecordId) (old : Option Record) (db : Database δ) :
    Database δ :=
  match old with
  | some old => reindexRemove U collection id old db
  | none => forget U collection id db

def delete (collection : String) (id : RecordId) : DatabaseM δ Bool := do
  let old ← oldRecord E U collection id
  let existed ← onStore (Heap.delete E collection id)
  modify (reindexDelete U collection id old)
  return existed

end Database

end Adabt.Engine

/-! ## Transactions

A transaction reads at its snapshot and buffers what it writes. A commit checks
every buffered write against the state it finds, and applies them only when all
of them pass; under the strict policy it checks what was read as well. -/

namespace Adabt.Engine
open Adabt.Core Adabt.Indexing Adabt.Library Adabt.Storage

inductive Write where
  | put (rec : Record)
  | delete

/-- Keys in the order in which a commit visits them. -/
abbrev WriteKey := String ×ₗ RecordId

abbrev WriteKey.key (k : WriteKey) : Heap.Key := ofLex k

/-- What a transaction sees under a key it has written. -/
def Write.seen : Write → Option Record
  | put rec => some rec
  | delete => none

structure Transaction where
  snapshot : ℕ
  writes : OrdMap WriteKey Write
  /-- A set: the order decides no more than which of two conflicts is named. -/
  reads : List Heap.Key

abbrev TransactionM := EStateM Error Transaction

namespace Transaction

variable (E : Env)

def new (snapshot : ℕ) : Transaction := ⟨snapshot, ∅, []⟩

def isEmpty (txn : Transaction) : Bool := txn.writes.entries.isEmpty

def written (txn : Transaction) (collection : String) (id : RecordId) : Option Write :=
  txn.writes.get (toLex (collection, id))

def observe (keys : List Heap.Key) (txn : Transaction) : Transaction :=
  { txn with reads := txn.reads ++ keys }

def buffer (collection : String) (id : RecordId) (w : Write) (txn : Transaction) : Transaction :=
  { txn with writes := txn.writes.insert (toLex (collection, id)) w }

/-- Its own writes first, then its snapshot. -/
def get (store : Heap) (collection : String) (id : RecordId) : TransactionM (Option Record) := do
  let txn ← MonadState.get
  match txn.written collection id with
  | some w => return w.seen
  | none =>
    modify (observe [(collection, id)])
    attempt (Heap.getAt E store collection id txn.snapshot)

def overlayWrite (collection : String) (rows : OrdMap RecordId Record) (w : WriteKey × Write) :
    OrdMap RecordId Record :=
  if w.1.key.1 ≠ collection then rows
  else match w.2 with
    | .put rec => rows.insert w.1.key.2 rec
    | .delete => rows.erase w.1.key.2

/-- The rows of the snapshot under its own writes. -/
def overlay (txn : Transaction) (collection : String) (rows : OrdMap RecordId Record) :
    OrdMap RecordId Record :=
  txn.writes.entries.foldl (overlayWrite collection) rows

def scan (store : Heap) (collection : String) : TransactionM (List (RecordId × Record)) := do
  let txn ← MonadState.get
  let rows ← attempt (Heap.scanAt E store collection txn.snapshot)
  let seen := txn.overlay collection ((∅ : OrdMap RecordId Record).insertAll rows)
  modify (observe (seen.keys.map fun id => (collection, id)))
  return seen.entries

def insert (store : Heap) (collection : String) (id : RecordId) (rec : Record) :
    TransactionM Unit := do
  let found ← get E store collection id
  if found.isSome then throw (.recordExists id)
  else modify (buffer collection id (.put rec))

def update (store : Heap) (collection : String) (id : RecordId) (rec : Record) :
    TransactionM Bool := do
  let found ← get E store collection id
  modify (buffer collection id (.put rec))
  return found.isSome

def delete (store : Heap) (collection : String) (id : RecordId) : TransactionM Bool := do
  let found ← get E store collection id
  modify (buffer collection id .delete)
  return found.isSome

end Transaction

/-! ## Committing -/

def latestWriteTs (store : Heap) (collection : String) (id : RecordId) : Except Error (Option ℕ) :=
  match store.collections.get collection with
  | none => .error (.noSuchCollection collection)
  | some c => .ok ((c.directory.get id).bind (·.newestStamp))

/-- First committer wins: nothing newer than the snapshot may stand under the key. -/
def checkUnwritten (store : Heap) (snapshot : ℕ) (key : Heap.Key) : Except Error Unit := do
  let ts ← latestWriteTs store key.1 key.2
  ensure (ts.all (· ≤ snapshot)) (.transactionConflict key.1 key.2)

namespace Database

variable {δ : Type} (E : Env) (U : Upkeep δ)

def checkPut (db : Database δ) (collection : String) (id : RecordId) (rec : Record) :
    Except Error Unit := do
  let row := normalizeForStorage rec
  let schema ← Heap.schemaOf db.store collection
  match schema.validateRecord row with
  | .ok () => db.checkUniqueConstraints collection (some id) row
  | .error e => .error (.schema e)

def checkWrite (db : Database δ) (snapshot : ℕ) (w : WriteKey × Write) : Except Error Unit := do
  checkUnwritten db.store snapshot w.1.key
  match w.2 with
  | .put rec => db.checkPut w.1.key.1 w.1.key.2 rec
  | .delete => .ok ()

/-- The rows that were read and not written. -/
def observed (txn : Transaction) : List Heap.Key :=
  txn.reads.filter fun k => (txn.written k.1 k.2).isNone

def checkReads (db : Database δ) (txn : Transaction) : Except Error Unit :=
  if db.strict then checkAll (checkUnwritten db.store txn.snapshot) (observed txn) else .ok ()

def checkCommit (db : Database δ) (txn : Transaction) : Except Error Unit := do
  checkAll (db.checkWrite txn.snapshot) txn.writes.entries
  db.checkReads txn

def applyWrite (w : WriteKey × Write) : DatabaseM δ Unit := do
  match w.2 with
  | .put rec =>
    let _ ← update E U w.1.key.1 w.1.key.2 rec
    return ()
  | .delete =>
    let _ ← delete E U w.1.key.1 w.1.key.2
    return ()

/-- Check everything, then apply everything. -/
def commit (txn : Transaction) : DatabaseM δ Unit := do
  if txn.isEmpty then return ()
  else
    attempt ((← get).checkCommit txn)
    forEach (applyWrite E U) txn.writes.entries

end Database

end Adabt.Engine
