import Adabt.Engine.Database

/-! # Sessions

One database with the transactions open on it. Their statements, their ends and
the writes outside of any transaction come in any order. Each transaction keeps a
transcript, and the session the list of what was committed. -/

set_option autoImplicit false

namespace Adabt.Engine
open Adabt.Core Adabt.Indexing Adabt.Library Adabt.Storage

/-- What is said inside a transaction. -/
inductive Statement where
  | get (collection : String) (id : RecordId)
  | scan (collection : String)
  | insert (collection : String) (id : RecordId) (rec : Record)
  | update (collection : String) (id : RecordId) (rec : Record)
  | delete (collection : String) (id : RecordId)

inductive Reply where
  | record (found : Option Record)
  | rows (rows : List (RecordId × Record))
  | done
  | existed (found : Bool)

abbrev Answer := Except Error Reply

namespace Statement

def perform (E : Env) (store : Heap) : Statement → TransactionM Reply
  | get c id => do
    let found ← Transaction.get E store c id
    return .record found
  | scan c => do
    let rows ← Transaction.scan E store c
    return .rows rows
  | insert c id rec => do
    Transaction.insert E store c id rec
    return .done
  | update c id rec => do
    let existed ← Transaction.update E store c id rec
    return .existed existed
  | delete c id => do
    let existed ← Transaction.delete E store c id
    return .existed existed

/-- The write that a statement with this answer buffered. -/
def write : Statement → Answer → Option (WriteKey × Write)
  | insert c id rec, .ok _ => some (toLex (c, id), .put rec)
  | update c id rec, .ok _ => some (toLex (c, id), .put rec)
  | delete c id, .ok _ => some (toLex (c, id), .delete)
  | _, _ => none

end Statement

abbrev Transcript := List (Statement × Answer)

def noteWrite (writes : OrdMap WriteKey Write) (p : Statement × Answer) : OrdMap WriteKey Write :=
  match p.1.write p.2 with
  | some w => writes.insert w.1 w.2
  | none => writes

/-- The last write of a transcript to each key. -/
def Transcript.written (past : Transcript) : OrdMap WriteKey Write := past.foldl noteWrite ∅

/-- What is called outside of transactions. -/
inductive Call where
  | insert (collection : String) (id : RecordId) (rec : Record)
  | insertBatch (collection : String) (records : List (RecordId × Record))
  | update (collection : String) (id : RecordId) (rec : Record)
  | delete (collection : String) (id : RecordId)
  | reclaim

namespace Database

variable {δ : Type} (E : Env) (U : Upkeep δ)

def begin : DatabaseM δ Transaction := do
  let snapshot ← onStore Heap.openSnapshot
  return .new snapshot

def reclaimVersions : DatabaseM δ ℕ := onStore (Heap.reclaim E)

/-- Dropping a transaction drops its snapshot. -/
def abort (txn : Transaction) (db : Database δ) : Database δ :=
  { db with store := Heap.closeSnapshot txn.snapshot db.store }

end Database

def Call.perform {δ : Type} (E : Env) (U : Upkeep δ) : Call → DatabaseM δ Unit
  | insert c id rec => Database.insert E U c id rec
  | insertBatch c records => do
    let _ ← Database.insertBatch E U c records
    return ()
  | update c id rec => do
    let _ ← Database.update E U c id rec
    return ()
  | delete c id => do
    let _ ← Database.delete E U c id
    return ()
  | reclaim => do
    let _ ← Database.reclaimVersions E
    return ()

/-- A transaction that has not ended, with what was said in it. -/
structure OpenTransaction where
  txn : Transaction
  past : Transcript

def OpenTransaction.say (E : Env) (store : Heap) (st : Statement) (o : OpenTransaction) :
    OpenTransaction :=
  match st.perform E store o.txn with
  | .ok r txn => ⟨txn, o.past ++ [(st, .ok r)]⟩
  | .error e txn => ⟨txn, o.past ++ [(st, .error e)]⟩

/-- What took effect: a committed transaction, or a call outside of any. -/
inductive Job where
  | txn (past : Transcript)
  | call (c : Call)

structure Session (δ : Type) where
  db : Database δ
  opened : OrdMap ℕ OpenTransaction
  /-- The number of the next transaction. -/
  next : ℕ
  done : List Job

inductive Command where
  | begin
  | within (txn : ℕ) (s : Statement)
  | commit (txn : ℕ)
  | abort (txn : ℕ)
  | call (c : Call)

namespace Session

variable {δ : Type} (E : Env) (U : Upkeep δ)

def start (db : Database δ) : Session δ := ⟨db, ∅, 0, []⟩

def begin (s : Session δ) : Session δ :=
  match Database.begin s.db with
  | .ok txn db => ⟨db, s.opened.insert s.next ⟨txn, []⟩, s.next + 1, s.done⟩
  | .error _ db => { s with db := db }

/-- A transaction that ended, successfully or not, is dropped. -/
def finish (i : ℕ) (o : OpenTransaction) (s : Session δ) : Session δ :=
  match Database.commit E U o.txn s.db with
  | .ok _ db => ⟨Database.abort o.txn db, s.opened.erase i, s.next, s.done ++ [.txn o.past]⟩
  | .error _ db => ⟨Database.abort o.txn db, s.opened.erase i, s.next, s.done⟩

def step (c : Command) (s : Session δ) : Session δ :=
  match c with
  | .begin => s.begin
  | .within i st =>
    match s.opened.get i with
    | some o => { s with opened := s.opened.insert i (o.say E s.db.store st) }
    | none => s
  | .commit i =>
    match s.opened.get i with
    | some o => finish E U i o s
    | none => s
  | .abort i =>
    match s.opened.get i with
    | some o => { s with db := Database.abort o.txn s.db, opened := s.opened.erase i }
    | none => s
  | .call c => { s with db := exec (c.perform E U) s.db, done := s.done ++ [.call c] }

end Session

end Adabt.Engine
