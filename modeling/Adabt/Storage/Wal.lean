import Adabt.Storage.Cursor

/-! # The write-ahead log

Logical entries in segments. A segment is sealed once it has grown past a limit,
and a checkpoint may discard the segments that lie wholly below it. Entries are
kept decoded; their encoding is needed here for its length only. -/

set_option autoImplicit false

namespace Adabt.Storage
open Adabt.Core Adabt.Library

inductive WalOp where
  | insert (collection : String) (id : RecordId) (bytes : Bytes)
  | update (collection : String) (id : RecordId) (bytes : Bytes)
  | delete (collection : String) (id : RecordId)
  | createCollection (name : String) (schema : Bytes)
  | dropCollection (name : String)
  | setClusterField (collection : String) (field : Option String)
  | commit (txn : ℕ)
  | checkpoint (flushedLsn : ℕ)
  | createIndex (collection field kind : String)
  | dropIndex (collection field kind : String)
  | adoptMigration (target source : String)
  | alterSchemaInPlace (collection : String) (schema : Bytes)
  deriving DecidableEq, Repr

structure WalEntry where
  lsn : ℕ
  nanos : ℕ
  txn : ℕ
  op : WalOp
  deriving DecidableEq, Repr

def putStr (s : String) : Bytes :=
  Varint.writeU64 (UInt64.ofNat s.utf8ByteSize) ++ utf8 s

def putBytes (b : Bytes) : Bytes := Varint.writeU64 (UInt64.ofNat b.length) ++ b

def putU64 (n : ℕ) : Bytes := Varint.writeU64 (UInt64.ofNat n)

namespace WalOp

def encode : WalOp → Bytes
  | insert c id b => 1 :: (putStr c ++ putU64 id ++ putBytes b)
  | update c id b => 2 :: (putStr c ++ putU64 id ++ putBytes b)
  | delete c id => 3 :: (putStr c ++ putU64 id)
  | createCollection n s => 4 :: (putStr n ++ putBytes s)
  | dropCollection n => 5 :: putStr n
  | commit t => 6 :: putU64 t
  | checkpoint l => 7 :: putU64 l
  | createIndex c f k => 8 :: (putStr c ++ putStr f ++ putStr k)
  | dropIndex c f k => 9 :: (putStr c ++ putStr f ++ putStr k)
  | adoptMigration t s => 10 :: (putStr t ++ putStr s)
  | alterSchemaInPlace c s => 11 :: (putStr c ++ putBytes s)
  | setClusterField c (some f) => 12 :: (putStr c ++ 1 :: putStr f)
  | setClusterField c none => 12 :: (putStr c ++ [0])

end WalOp

def WalEntry.encodePayload (e : WalEntry) : Bytes :=
  leBytes 8 e.lsn ++ leBytes 8 e.nanos ++ leBytes 8 e.txn ++ e.op.encode

/-- The largest log entry accepted. -/
def maxEntry : ℕ := 64 * 1024 * 1024

def defaultSegmentBytes : ℕ := 16 * 1024 * 1024

def segmentHeader : ℕ := 40

structure Segment where
  firstLsn : ℕ
  entries : List WalEntry
  deriving DecidableEq, Repr

structure Wal where
  /-- The sealed segments, oldest first. -/
  sealed : List Segment
  active : Segment
  activeBytes : ℕ
  segmentBytes : ℕ
  nextLsn : ℕ
  /-- The oldest entry still present; zero while nothing has been discarded. -/
  startLsn : ℕ
  deriving DecidableEq, Repr

namespace Wal

def empty : Wal := ⟨[], ⟨1, []⟩, segmentHeader, defaultSegmentBytes, 1, 0⟩

def segments (w : Wal) : List Segment := w.sealed ++ [w.active]

def entries (w : Wal) : List WalEntry := w.segments.flatMap (·.entries)

def setSegmentBytes (w : Wal) (bytes : ℕ) : Wal :=
  { w with segmentBytes := max bytes (segmentHeader + 1) }

def rotate (w : Wal) : Wal :=
  { w with sealed := w.sealed ++ [w.active], active := ⟨w.nextLsn, []⟩, activeBytes := segmentHeader }

/-- The bytes an entry takes in its segment: a length, a checksum and the payload. -/
def frameBytes (e : WalEntry) : ℕ := 8 + e.encodePayload.length

/-- Append one entry. One that is refused has used up its sequence number. -/
def append (w : Wal) (nanos txn : ℕ) (op : WalOp) : Except Error Unit × Wal :=
  let e : WalEntry := ⟨w.nextLsn, nanos, txn, op⟩
  let w := { w with nextLsn := w.nextLsn + 1 }
  let len := e.encodePayload.length
  if maxEntry < len then
    (.error (.corruption ("wal entry of " ++ toString len ++ " bytes exceeds the " ++
      toString maxEntry ++ "-byte limit")), w)
  else
    let w := { w with
      active := { w.active with entries := w.active.entries ++ [e] }
      activeBytes := w.activeBytes + frameBytes e }
    (.ok (), if w.segmentBytes ≤ w.activeBytes then w.rotate else w)

/-- The number of leading segments the next one of which starts at or before `through + 1`. -/
def removable (through : ℕ) : List Segment → ℕ
  | _ :: next :: rest =>
    if next.firstLsn ≤ through + 1 then removable through (next :: rest) + 1 else 0
  | _ => 0

/-- Drop every segment that lies entirely below `through`. -/
def discardBelow (w : Wal) (through : ℕ) : Wal :=
  let n := removable through w.segments
  if n = 0 then w
  else
    let sealed := w.sealed.drop n
    { w with sealed := sealed, startLsn := ((sealed ++ [w.active]).head?.map (·.firstLsn)).getD 0 }

/-- The log as `Wal::open` finds it. -/
def reopen (w : Wal) : Wal where
  sealed := w.sealed
  active := w.active
  activeBytes := segmentHeader + (w.active.entries.map frameBytes).sum
  segmentBytes := defaultSegmentBytes
  nextLsn := (w.active.entries.getLast?.map (·.lsn + 1)).getD w.active.firstLsn
  startLsn :=
    let first := (w.segments.head?.map (·.firstLsn)).getD 0
    if first ≤ 1 then 0 else first

def entriesFromSegments (start : ℕ) : List Segment → List WalEntry
  | [] => []
  | seg :: rest =>
    -- A segment is skipped only when the next one starts at or below the point asked for.
    let here := match rest.head? with
      | some next => if next.firstLsn ≤ start then [] else seg.entries
      | none => seg.entries
    here.filter (start ≤ ·.lsn) ++ entriesFromSegments start rest

/-- The entries at or above `start`. -/
def entriesFrom (w : Wal) (start : ℕ) : List WalEntry := entriesFromSegments start w.segments

end Wal

end Adabt.Storage
