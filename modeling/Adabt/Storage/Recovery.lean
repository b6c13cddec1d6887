import Adabt.Storage.HeapStore

/-! # Recovery

Opening a store: the persisted catalog, the collection definitions logged after
it, the directory as of the last checkpoint, the data entries after that, and
last the migrations that reached their commit entry. -/

set_option autoImplicit false

namespace Adabt.Storage
open Adabt.Core Adabt.Library

namespace Heap

variable (E : Env)

/-! ## Pass 0: the catalog -/

def adoptMeta (m : CollectionMeta) : HeapM Unit := do
  let schema ← attempt (decodeSchema m.schema)
  modify (registerWithId m.name schema m.id)
  let c ← coll m.name
  modify (setCollection m.name { c with nextRecordId := max c.nextRecordId m.nextRecordId })

def adoptCatalog (cat : Catalog) : HeapM Unit := do
  forEach adoptMeta cat.collections
  modify fun h => { h with
    nextCollectionId := cat.nextCollectionId
    deltaEncoding := cat.deltaEncoding
    threadPerCore := cat.threadPerCore
    indexDefs := cat.indexes }

/-- The catalog's position in the log, or zero without one while the log is complete. -/
def recoverCatalog : HeapM ℕ := do
  match (← get).catalogFile with
  | some cat =>
    adoptCatalog cat
    return cat.throughLsn
  | none =>
    let start := (← get).wal.startLsn
    if 0 < start then throw (missingCatalog start) else return 0

/-! ## Pass 1: collection definitions -/

def replayDefinition (op : WalOp) : HeapM Unit :=
  match op with
  | .createCollection name schema => do
    let schema ← attempt (decodeSchema schema)
    modify (register name schema)
  | .alterSchemaInPlace collection schema => do
    let schema ← attempt (decodeSchema schema)
    applyAlterSchemaInPlace collection schema
  | .createIndex collection field kind =>
    modify fun h => if ⟨collection, field, kind⟩ ∈ h.indexDefs then h
      else addIndex ⟨collection, field, kind⟩ h
  | .dropIndex collection field kind => modify (removeIndex ⟨collection, field, kind⟩)
  | .setClusterField collection field => modify (setCluster collection field)
  | .dropCollection name => modify fun h =>
    match h.collections.get name with
    | some c => unregister name c h
    | none => h
  -- An adoption moves records, which exist only once the data has been replayed.
  | .adoptMigration _ _ => pure ()
  | _ => pure ()

/-! ## Pass 2: the page directory -/

def flushedLsn (entries : List WalEntry) : ℕ :=
  (entries.reverse.findSome? fun e =>
    match e.op with
    | .checkpoint l => some l
    | _ => none).getD 0

/-- Put a record back under the collection its id names, if there is one. -/
def seat (cid : CollectionId) (id : RecordId) (loc : RecordLocation) (h : Heap) : Heap :=
  match h.byId.get cid with
  | none => h
  | some name =>
    match h.collections.get name with
    | none => h
    | some c => h.setCollection name { c with directory := c.directory.insert id (.single 0 loc) }

def seatAll (cid : CollectionId) (rows : List (RecordId × RecordLocation)) (h : Heap) : Heap :=
  rows.foldl (fun h row => seat cid row.1 row.2 h) h

def loadSnapshot (s : DirectorySnapshot) (h : Heap) : Heap :=
  let h := s.collections.foldl (fun h c => seatAll c.1 c.2 h) h
  { h with fsm := s.freeSpace.foldl (fun m e => m.set e.1 e.2) h.fsm }

/-- Load the cached directory, if it describes this checkpoint. -/
def loadDirectory (flushed : ℕ) : HeapM Bool := do
  let h ← get
  if flushed = 0 then return false
  else
    match readDirectory h.directoryFile (directoryStamp h flushed) with
    | none => return false
    | some s =>
      modify (loadSnapshot s)
      return true

def shortSlot (page slot : ℕ) : Error :=
  .corruption ("slot " ++ toString slot ++ " on page " ++ toString page ++
    " is shorter than its prefix")

/-- The collection and record a payload says it belongs to. -/
def ownerOf (payload : Bytes) : CollectionId × RecordId :=
  (Fin.ofNat _ (ofLeBytes (payload.take 4)), Fin.ofNat _ (ofLeBytes ((payload.drop 4).take 8)))

def readOwners (pid : ℕ) (page : Page) :
    List ℕ → Except Error (List (CollectionId × RecordId × ℕ))
  | [] => .ok []
  | slot :: rest => do
    let payload ← page.get slot
    ensure (slotPrefix ≤ payload.length) (shortSlot pid slot)
    let owners ← readOwners pid page rest
    return ((ownerOf payload).1, (ownerOf payload).2, slot) :: owners

def scanPage (pid : ℕ) : HeapM Unit := do
  let page ← getPage pid
  let found ← attempt (readOwners pid page page.liveSlots)
  modify fun h => found.foldl (fun h o => seat o.1 o.2.1 ⟨pid, o.2.2⟩ h) h
  modify fun h => { h with fsm := h.fsm.set pid page.freeSpace }

def scanPages : HeapM Unit := do forEach scanPage (List.range (← get).pool.pageCount)

/-! ## Passes 3 and 4: data and migrations -/

def replayData (op : WalOp) : HeapM Unit :=
  match op with
  | .insert collection id bytes => applyPut E collection id bytes
  | .update collection id bytes => applyPut E collection id bytes
  | .delete collection id => do
    let _ ← applyDelete E collection id
    return ()
  | _ => pure ()

def replayAdoption (op : WalOp) : HeapM Unit :=
  match op with
  | .adoptMigration target source => adopt target source
  | _ => pure ()

/-- Anything still wearing a migration name belongs to a change that was cut short. -/
def discardStaging (name : String) : HeapM Unit := do
  match (← get).collections.get name with
  | none => return ()
  | some c =>
    modify (unregister name c)
    freePagesOf c

def recover (target : Option ℕ) : HeapM Unit := do
  let fromLsn ← recoverCatalog
  if target.any (· < fromLsn) then
    throw (.restoreTargetUnreachable (target.getD 0) fromLsn)
  else
    let all := (← get).wal.entriesFrom fromLsn
    let entries := all.filter fun e => target.all (e.lsn ≤ ·)
    forEach (fun e => replayDefinition e.op) (entries.filter (fromLsn < ·.lsn))
    let flushed := flushedLsn entries
    let loaded ← loadDirectory flushed
    if loaded then pure () else scanPages
    forEach (fun e => replayData E e.op) (entries.filter (flushed < ·.lsn))
    forEach (fun e => replayAdoption e.op) entries
    let h ← get
    forEach discardStaging ((E.names h.wal.nextLsn h.collections.keys).filter isMigrationName)
    let _ ← reclaim E
    modify fun h => { h with retained := 0 }

/-! ## Opening -/

/-- What a stopped store leaves behind: the pages its heap file holds, its log,
and the two files beside them. -/
structure Files where
  pages : List Page
  wal : Wal
  catalogFile : Option Catalog
  directoryFile : Option DirectoryFile

/-- The files may be what is on disk when the store stops. -/
structure Leaves (h : Heap) (files : Files) : Prop where
  pages : h.pool.MayHold files.pages
  wal : files.wal = h.wal
  catalogFile : files.catalogFile = h.catalogFile
  directoryFile : files.directoryFile = h.directoryFile

/-- The store before recovery has looked at anything. -/
def unopened (files : Files) (versions : VersionTracker) : Heap where
  pool := .ofFile files.pages
  wal := files.wal.reopen
  collections := ∅
  byId := ∅
  nextCollectionId := 0
  fsm := .new
  compress := false
  deltaEncoding := true
  threadPerCore := false
  versions := versions
  retained := 0
  indexDefs := []
  replaying := true
  catalogFile := files.catalogFile
  directoryFile := files.directoryFile

/-- `open_shared_at`: recover from the files, up to a log position if one is given. -/
def openSharedAt (files : Files) (versions : VersionTracker) (target : Option ℕ) :
    Except Error Heap :=
  match recover E target (unopened files versions) with
  | .ok _ h => .ok { h with replaying := false }
  | .error e _ => .error e

/-- `open`: everything the log holds, under a tracker of its own. -/
def openStore (files : Files) : Except Error Heap := openSharedAt E files .new none

/-- A store opened on an empty directory. -/
def fresh : Heap := { unopened ⟨[], .empty, none, none⟩ .new with replaying := false }

end Heap

end Adabt.Storage
