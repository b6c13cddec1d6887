import Adabt.Core.Error
import Adabt.Core.Schema
import Adabt.Storage.Cursor
import Adabt.Storage.Page

/-! # The catalog

What is written beside the heap and the log, and how a schema is written there. -/

set_option autoImplicit false

namespace Adabt.Storage
open Adabt.Core Adabt.Library

/-! ## The files beside the heap and the log

The persisted catalog, which is authoritative, and the cached page directory,
which is used only when its stamp names the checkpoint and the file length that
recovery finds. Their byte formats carry a checksum; here a file is what was last
written to it. -/

structure IndexDef where
  collection : String
  field : String
  kind : String
  deriving DecidableEq, Repr

structure CollectionMeta where
  name : String
  id : CollectionId
  nextRecordId : RecordId
  schema : Bytes
  clusterField : Option String
  deriving DecidableEq, Repr

structure Catalog where
  collections : List CollectionMeta
  indexes : List IndexDef
  nextCollectionId : CollectionId
  /-- The log position this catalog reflects. -/
  throughLsn : ℕ
  /-- The oldest entry the log still holds. -/
  logStartLsn : ℕ
  deltaEncoding : Bool
  threadPerCore : Bool
  deriving DecidableEq, Repr

/-- The error raised when the catalog is needed and is not there. -/
def missingCatalog (start : ℕ) : Error :=
  .corruption ("the catalog is missing or unreadable and the log begins at " ++ toString start ++
    " rather than the start, so the name-to-id binding cannot be rebuilt from it. Restore " ++
    "the catalog or recover from a backup.")

structure Stamp where
  checkpointLsn : ℕ
  heapBytes : ℕ
  deriving DecidableEq, Repr

/-- A directory as it was at a checkpoint, by collection id. -/
structure DirectorySnapshot where
  collections : List (CollectionId × List (RecordId × RecordLocation))
  freeSpace : List (ℕ × ℕ)
  deriving DecidableEq, Repr

structure DirectoryFile where
  stamp : Stamp
  snapshot : DirectorySnapshot
  deriving DecidableEq, Repr

/-- Read the directory, if one describes this exact checkpoint. -/
def readDirectory (file : Option DirectoryFile) (stamp : Stamp) : Option DirectorySnapshot :=
  match file with
  | some f => if f.stamp = stamp then some f.snapshot else none
  | none => none

/-! ## Schema serialisation

The layout of every record is derived from its collection's schema, so a schema
has to come back from the log and the catalog exactly as it was. -/

/-- Guards against a corrupt `List` chain recursing without bound. -/
def maxTypeDepth : ℕ := 32

def writeOptU32 : Option UInt32 → Bytes
  | none => [0]
  | some n => 1 :: Varint.writeU64 n.toUInt64

def writeType : FieldType → Bytes
  | .bool => [0]
  | .i64 => [1]
  | .u64 => [2]
  | .f64 => [3]
  | .char n => 4 :: Varint.writeU64 n.toUInt64
  | .fixedBytes n => 5 :: Varint.writeU64 n.toUInt64
  | .str maxLen => 6 :: writeOptU32 maxLen
  | .bytes maxLen => 7 :: writeOptU32 maxLen
  | .list inner => 8 :: writeType inner
  | .map => [9]
  | .any => [10]
  | .decimal scale => [11, scale]
  | .timestamp => [12]

def modeTag : SchemaMode → UInt8
  | .dynamic => 0
  | .declared => 1
  | .strict => 2
  | .fixed => 3

def writeField (f : FieldDef) : Bytes :=
  Varint.writeU64 (UInt64.ofNat f.name.utf8ByteSize) ++ utf8 f.name ++
    (if f.nullable then 1 else 0) :: writeType f.ty

def encodeSchema (s : Schema) : Bytes :=
  modeTag s.mode :: (Varint.writeU64 (UInt64.ofNat s.fields.length) ++ s.fields.flatMap writeField)

namespace SchemaReader

def truncated : Error := .corruption "truncated schema"

def u8 : Bytes → Except Error (UInt8 × Bytes)
  | [] => .error truncated
  | b :: rest => .ok (b, rest)

def varint (buf : Bytes) : Except Error (UInt64 × Bytes) := do
  let (v, used) ← Varint.readU64 buf
  return (v, buf.drop used)

def bytes (n : ℕ) (buf : Bytes) : Except Error (Bytes × Bytes) :=
  if n ≤ buf.length then .ok (buf.take n, buf.drop n) else .error truncated

def optU32 (buf : Bytes) : Except Error (Option UInt32 × Bytes) := do
  let (b, buf) ← u8 buf
  if b = 0 then return (none, buf)
  else if b = 1 then
    let (v, buf) ← varint buf
    return (some v.toUInt32, buf)
  else .error (.corruption ("invalid optional marker " ++ toString b.toNat ++ " in schema"))

/-- A type; `fuel` is how many more levels of nesting are accepted. -/
def ty : ℕ → Bytes → Except Error (FieldType × Bytes)
  | 0, _ => .error (.corruption "schema type nested too deeply")
  | fuel + 1, buf => do
    let (tag, buf) ← u8 buf
    match tag.toNat with
    | 0 => return (.bool, buf)
    | 1 => return (.i64, buf)
    | 2 => return (.u64, buf)
    | 3 => return (.f64, buf)
    | 4 =>
      let (v, buf) ← varint buf
      return (.char v.toUInt32, buf)
    | 5 =>
      let (v, buf) ← varint buf
      return (.fixedBytes v.toUInt32, buf)
    | 6 =>
      let (m, buf) ← optU32 buf
      return (.str m, buf)
    | 7 =>
      let (m, buf) ← optU32 buf
      return (.bytes m, buf)
    | 8 =>
      let (inner, buf) ← ty fuel buf
      return (.list inner, buf)
    | 9 => return (.map, buf)
    | 10 => return (.any, buf)
    | 11 =>
      let (scale, buf) ← u8 buf
      return (.decimal scale, buf)
    | 12 => return (.timestamp, buf)
    | other => .error (.corruption ("unknown field type tag " ++ toString other ++ " in schema"))

def mode (tag : UInt8) : Except Error SchemaMode :=
  match tag.toNat with
  | 0 => .ok .dynamic
  | 1 => .ok .declared
  | 2 => .ok .strict
  | 3 => .ok .fixed
  | other => .error (.corruption ("unknown schema mode " ++ toString other))

def field (buf : Bytes) : Except Error (FieldDef × Bytes) := do
  let (len, buf) ← varint buf
  let (raw, buf) ← bytes len.toNat buf
  match decodeUtf8 raw with
  | none => .error (.corruption "invalid utf-8 in field name")
  | some name =>
    let (nullable, buf) ← u8 buf
    let (t, buf) ← ty (maxTypeDepth + 1) buf
    return (⟨name, t, nullable ≠ 0⟩, buf)

def fields : ℕ → Bytes → Except Error (List FieldDef)
  | 0, _ => .ok []
  | n + 1, buf => do
    let (f, buf) ← field buf
    let rest ← fields n buf
    return f :: rest

end SchemaReader

open SchemaReader in
def decodeSchema (buf : Bytes) : Except Error Schema := do
  let (tag, rest) ← u8 buf
  let mode ← mode tag
  let (n, rest) ← varint rest
  ensure (n.toNat ≤ buf.length) (.corruption ("schema declares " ++ toString n.toNat ++
    " fields but is only " ++ toString buf.length ++ " bytes"))
  let fields ← fields n.toNat rest
  if mode = .dynamic ∧ fields = [] then return Schema.dynamic
  else match Schema.new mode fields with
    | .ok s => return s
    | .error e => .error (.schema e)

end Adabt.Storage
