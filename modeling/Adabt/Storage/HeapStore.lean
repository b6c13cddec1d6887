import Adabt.Storage.Heap

/-! # The heap store

The calls a store answers: the logical ones, schema changes along either path,
and maintenance. Each is written against the physical operations and logs what
it does before it does it. -/

set_option autoImplicit false

namespace Adabt.Storage
open Adabt.Core Adabt.Library

/-- A top-level null is stored as absence. -/
def normalizeForStorage (rec : Record) : Record := rec.filter fun _ v => !v.1.isNull

/-- Keep only the fields the schema still recognizes. -/
def projectOntoSchema (schema : Schema) (rec : Record) : Record :=
  if schema.mode.allowsExtraFields then rec
  else rec.filter fun name _ => (schema.field name).isSome

namespace Heap

variable (E : Env)

/-! ## Collections -/

def createCollection (name : String) (schema : Schema) : HeapM Unit := do
  if (← get).collections.contains name then throw (.collectionExists name)
  else
    log E (.createCollection name (encodeSchema schema))
    modify (register name schema)

def dropCollection (name : String) : HeapM Unit := do
  match (← get).collections.get name with
  | none => throw (.noSuchCollection name)
  | some c =>
    log E (.dropCollection name)
    modify (unregister name c)
    freePagesOf c

/-! ## Records -/

def isLive (c : Collection) (id : RecordId) : Bool :=
  ((c.directory.get id).map fun chain => !chain.isAbsent).getD false

def validate (c : Collection) (rec : Record) : Except Error Unit :=
  match c.codec.schema.validateRecord rec with
  | .ok () => .ok ()
  | .error e => .error (.schema e)

/-- What every insert checks before it logs anything: the encoded record. -/
def prepareInsert (c : Collection) (id : RecordId) (rec : Record) : Except Error Bytes := do
  validate c rec
  ensure (isLive c id = false) (.recordExists id)
  c.codec.encode rec

/-- `insert` and `insert_keyed`, which differ in what they put the record with. -/
def insertBy (put : String → RecordId → Bytes → HeapM Unit) (collection : String) (id : RecordId)
    (rec : Record) : HeapM Unit := do
  let c ← coll collection
  let bytes ← attempt (prepareInsert c id (normalizeForStorage rec))
  log E (.insert collection id bytes)
  put collection id bytes

def insert (collection : String) (id : RecordId) (rec : Record) : HeapM Unit :=
  insertBy E (applyPut E) collection id rec

def insertKeyed (collection : String) (id : RecordId) (rec : Record) (key : Int64) : HeapM Unit :=
  insertBy E (fun c i b => applyPutKeyed E c i b key) collection id rec

/-- Check a batch against the directory and against itself. -/
def prepareBatch (h : Heap) (collection : String) :
    List RecordId → List (RecordId × Record) → Except Error (List (RecordId × Bytes))
  | _, [] => .ok []
  | seen, (id, rec) :: rest => do
    let c ← match h.collections.get collection with
      | some c => .ok c
      | none => .error (.noSuchCollection collection)
    let row := normalizeForStorage rec
    validate c row
    ensure (isLive c id = false) (.recordExists id)
    ensure (id ∉ seen) (.recordExists id)
    let bytes ← c.codec.encode row
    let prepared ← prepareBatch h collection (id :: seen) rest
    return (id, bytes) :: prepared

def insertBatch (collection : String) (records : List (RecordId × Record)) : HeapM ℕ := do
  let prepared ← attempt (prepareBatch (← get) collection [] records)
  forEach (fun p => log E (.insert collection p.1 p.2)) prepared
  forEach (fun p => applyPut E collection p.1 p.2) prepared
  return prepared.length

def update (collection : String) (id : RecordId) (rec : Record) : HeapM Bool := do
  let row := normalizeForStorage rec
  let c ← coll collection
  attempt (validate c row)
  let existed := isLive c id
  let bytes ← attempt (c.codec.encode row)
  log E (.update collection id bytes)
  applyPut E collection id bytes
  return existed

def delete (collection : String) (id : RecordId) : HeapM Bool := do
  let c ← coll collection
  if isLive c id then
    log E (.delete collection id)
    applyDelete E collection id
  else applyDelete E collection id

/-! ## Schema changes -/

/-- Every record must fit the new schema before anything is written. -/
def checkFits (schema : Schema) : List (RecordId × Record) → Except Error Unit
  | [] => .ok ()
  | (id, rec) :: rest =>
    match schema.validateRecord rec with
    | .ok () => checkFits schema rest
    | .error e => .error (.invalidOptimization ("record " ++ toString id.val ++
        " does not fit the proposed schema: " ++ e.message))

def copyRow (staging : String) (row : RecordId × Record) : HeapM Unit := do
  let c ← coll staging
  let bytes ← attempt (c.codec.encode row.2)
  log E (.insert staging row.1 bytes)
  applyPut E staging row.1 bytes

/-- The out-of-place path: build the new encoding beside the old one, then flip. -/
def migrate (collection : String) (schema : Schema) : HeapM ℕ := do
  let rows ← attempt (scan E (← get) collection)
  let projected := rows.map fun row => (row.1, projectOntoSchema schema row.2)
  attempt (checkFits schema projected)
  let staging := migrationName collection
  if (← get).collections.contains staging then dropCollection E staging
  log E (.createCollection staging (encodeSchema schema))
  modify (register staging schema)
  forEach (copyRow E staging) projected
  log E (.adoptMigration collection staging)
  adopt collection staging
  return rows.length

def alterInPlace (collection : String) (schema : Schema) : HeapM ℕ := do
  log E (.alterSchemaInPlace collection (encodeSchema schema))
  applyAlterSchemaInPlace collection schema
  return 0

def alterSchema (collection : String) (schema : Schema) : HeapM ℕ := do
  if isMigrationName collection then
    throw (.invalidOptimization "cannot alter the schema of a migration collection")
  else
    let c ← coll collection
    if schemaEditableInPlace c.codec.schema schema then alterInPlace E collection schema
    else migrate E collection schema

/-! ## Declarations -/

def setCluster (collection : String) (field : Option String) (h : Heap) : Heap :=
  match h.collections.get collection with
  | some c => h.setCollection collection { c with clusterName := field }
  | none => h

def setClusterField (collection : String) (field : Option String) : HeapM Unit := do
  let _ ← coll collection
  log E (.setClusterField collection field)
  modify (setCluster collection field)

def addIndex (d : IndexDef) (h : Heap) : Heap := { h with indexDefs := h.indexDefs ++ [d] }

def removeIndex (d : IndexDef) (h : Heap) : Heap :=
  { h with indexDefs := h.indexDefs.filter (· ≠ d) }

def recordIndex (d : IndexDef) : HeapM Unit := do
  if d ∈ (← get).indexDefs then return ()
  else
    log E (.createIndex d.collection d.field d.kind)
    modify (addIndex d)

def forgetIndex (d : IndexDef) : HeapM Unit := do
  let before := (← get).indexDefs.length
  modify (removeIndex d)
  if (← get).indexDefs.length ≠ before then log E (.dropIndex d.collection d.field d.kind)
  else return ()

/-! ## Maintenance -/

def payloadBytes (h : Heap) : List RecordLocation → Except Error ℕ
  | [] => .ok 0
  | loc :: rest => do
    let page ← h.pool.get loc.page
    let payload ← page.get loc.slot
    let total ← payloadBytes h rest
    return payload.length + total

/-- Total bytes occupied by live records, excluding page and slot overhead. -/
def storedBytes (h : Heap) : Except Error ℕ :=
  payloadBytes h (h.collections.values.flatMap fun c =>
    c.directory.values.filterMap (·.newest))

def recompressRow (name : String) (row : RecordId × Record) : HeapM Unit := do
  let c ← coll name
  let bytes ← attempt (c.codec.encode row.2)
  log E (.update name row.1 bytes)
  applyPut E name row.1 bytes

def recompressCollection (name : String) : HeapM Unit := do
  let rows ← attempt (scan E (← get) name)
  forEach (recompressRow E name) rows

/-- Re-encode every stored record under the current compression setting. -/
def recompressAll : HeapM ℤ := do
  let before ← attempt (storedBytes (← get))
  forEach (recompressCollection E) (collectionNames (← get))
  let after ← attempt (storedBytes (← get))
  return (after : ℤ) - before

def setCompression (on : Bool) (h : Heap) : Heap := { h with compress := on }

def openSnapshot : HeapM ℕ :=
  modifyGet fun h => (h.versions.current, { h with versions := h.versions.openSnapshot })

def closeSnapshot (stamp : ℕ) (h : Heap) : Heap :=
  { h with versions := h.versions.closeSnapshot stamp }

/-- Which records have their newest version on a page. -/
def liveRecordsOn (h : Heap) (page : ℕ) : List (String × RecordId) :=
  (E.names h.wal.nextLsn h.collections.keys).flatMap fun name =>
    match h.collections.get name with
    | none => []
    | some c => (c.directory.entries.filter fun e => e.2.newest.map (·.page) = some page).map
        fun e => (name, e.1)

def pushMoved (collection : String) (id : RecordId) (txn : ℕ) (loc : RecordLocation)
    (h : Heap) : Heap :=
  match h.collections.get collection with
  | none => h
  | some c =>
    match c.directory.get id with
    | none => h
    | some chain => { h.setCollection collection
        { c with directory := c.directory.insert id (chain.push txn (some loc)) } with
        retained := h.retained + 1 }

/-- Move one record off a page, if there is room for it elsewhere. -/
def relocate (collection : String) (id : RecordId) (page : ℕ) : HeapM Bool := do
  let h ← get
  match ((h.collections.get collection).bind (·.directory.get id)).bind (·.newest) with
  | none => return false
  | some loc =>
    if loc.page ≠ page then return false
    else
      let image ← getPage loc.page
      let payload ← attempt (image.get loc.slot)
      if (h.fsm.find (Page.costOf payload.length)).isNone then return false
      else
        let newLoc ← place payload
        let txn ← beginWrite
        modify (pushMoved collection id txn newLoc)
        return true

def relocateAll (page : ℕ) : List (String × RecordId) → HeapM Bool
  | [] => return false
  | (name, id) :: rest => do
    let moved ← relocate name id page
    let more ← relocateAll page rest
    return moved || more

/-- The rounds of `vacuum`; `none` when the rounds allowed were not enough. -/
def vacuumLoop : ℕ → ℕ → HeapM (Option ℕ)
  | 0, _ => return none
  | rounds + 1, freed => do
    let h ← get
    let count := h.pool.pageCount
    if count = 0 then return some freed
    else
      let last := count - 1
      let occupants := liveRecordsOn E h last
      if occupants = [] then
        modify fun h => { h with pool := h.pool.truncateTo last, fsm := h.fsm.forget last }
        vacuumLoop rounds (freed + 1)
      else
        -- Out of the map first, or a record could be put back where it came from.
        modify fun h => { h with fsm := h.fsm.forget last }
        let moved ← relocateAll last occupants
        if moved then
          let _ ← reclaim E
          vacuumLoop rounds freed
        else return some freed

/-- Give trailing heap pages back to the operating system. -/
def vacuum (rounds : ℕ) : HeapM (Option ℕ) := do
  let _ ← reclaim E
  vacuumLoop E rounds 0

/-! ## Checkpoints -/

def directoryStamp (h : Heap) (flushedLsn : ℕ) : Stamp :=
  ⟨flushedLsn, h.pool.pageCount * pageSize⟩

/-- Where every live record is. -/
def liveLocations (c : Collection) : List (RecordId × RecordLocation) :=
  rowLocations (·.newest) c.directory

def directorySnapshot (h : Heap) : DirectorySnapshot where
  collections := (E.names h.wal.nextLsn h.collections.keys).filterMap fun name =>
    (h.collections.get name).map fun c => (c.id, liveLocations c)
  freeSpace := (E.pages h.wal.nextLsn h.fsm.free.keys).filterMap fun page =>
    (h.fsm.free.get page).map fun free => (page, free)

def catalogSnapshot (h : Heap) (throughLsn : ℕ) : Catalog where
  collections := (E.names h.wal.nextLsn h.collections.keys).filterMap fun name =>
    (h.collections.get name).map fun c =>
      ⟨name, c.id, c.nextRecordId, encodeSchema c.codec.schema, c.clusterName⟩
  indexes := h.indexDefs
  nextCollectionId := h.nextCollectionId
  throughLsn := throughLsn
  logStartLsn := h.wal.startLsn
  deltaEncoding := h.deltaEncoding
  threadPerCore := h.threadPerCore

/-- `checkpoint` appends its entry whether or not the store is replaying. -/
def logCheckpoint (flushed : ℕ) : HeapM Unit := do
  let h ← get
  let (result, wal) := h.wal.append (E.clock h.wal.nextLsn) 0 (.checkpoint flushed)
  modify fun h => { h with wal := wal }
  attempt result

/-- Flush every dirty page and record the point replay may start from. -/
def checkpoint : HeapM Unit := do
  modify fun h => { h with pool := h.pool.flush }
  let flushed := (← get).wal.nextLsn - 1
  logCheckpoint E flushed
  modify fun h => { h with
    directoryFile := some ⟨directoryStamp h flushed, directorySnapshot E h⟩ }
  modify fun h => { h with catalogFile := some (catalogSnapshot E h flushed) }
  modify fun h => { h with wal := h.wal.discardBelow flushed }
  modify fun h => { h with catalogFile := some (catalogSnapshot E h flushed) }

end Heap

end Adabt.Storage
