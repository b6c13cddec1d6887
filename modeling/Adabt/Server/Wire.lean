import Adabt.Core.Error
import Adabt.Ir.Plan
import Adabt.Library.Bytes
import Adabt.Storage.ValueCodec

/-! # The wire protocol

Length-prefixed binary frames, whose length is known before the body is parsed.
Bodies are little-endian and length-prefixed as well; a record goes over the wire
as a dynamic collection stores it, and the query body is one filtered scan. -/

set_option autoImplicit false

/-! ## Frames -/

namespace Adabt.Server
open Adabt.Core Adabt.Library

def magic : ℕ := 0x41444254

def protocolVersion : ℕ := 1

/-- The largest frame accepted. -/
def maxFrame : ℕ := 64 * 1024 * 1024

inductive RequestKind where
  | ping
  | get
  | insert
  | update
  | delete
  | count
  | query
  | explain
  | optimize
  | explainOptimizations
  | metrics
  | auth
  deriving DecidableEq, Repr

namespace RequestKind

def code : RequestKind → UInt8
  | .ping => 0
  | .get => 1
  | .insert => 2
  | .update => 3
  | .delete => 4
  | .count => 5
  | .query => 6
  | .explain => 7
  | .optimize => 8
  | .explainOptimizations => 9
  | .metrics => 10
  | .auth => 11

def fromCode (c : UInt8) : Option RequestKind :=
  match c.toNat with
  | 0 => some .ping
  | 1 => some .get
  | 2 => some .insert
  | 3 => some .update
  | 4 => some .delete
  | 5 => some .count
  | 6 => some .query
  | 7 => some .explain
  | 8 => some .optimize
  | 9 => some .explainOptimizations
  | 10 => some .metrics
  | 11 => some .auth
  | _ => none

theorem fromCode_code (k : RequestKind) : fromCode k.code = some k := by
  cases k <;> rfl

end RequestKind

inductive StatusCode where
  | ok
  | notFound
  | badRequest
  | schemaError
  | conflict
  | notImplemented
  | cancelled
  | unauthorized
  | authDenied
  | forbidden
  | internal
  deriving DecidableEq, Repr

namespace StatusCode

def code : StatusCode → UInt8
  | .ok => 0
  | .notFound => 1
  | .badRequest => 2
  | .schemaError => 3
  | .conflict => 4
  | .internal => 5
  | .notImplemented => 6
  | .cancelled => 7
  | .unauthorized => 8
  | .authDenied => 9
  | .forbidden => 10

/-- Map an engine error onto a wire status. -/
def of : Error → StatusCode
  | .noSuchCollection _ => .notFound
  | .collectionExists _ => .conflict
  | .recordExists _ => .conflict
  | .uniqueViolation _ _ => .conflict
  | .transactionConflict _ _ => .conflict
  | .schema _ => .schemaError
  | .invalidOptimization _ => .badRequest
  | .invalidRestore _ => .badRequest
  | .unsupported _ => .notImplemented
  | .cancelled _ => .cancelled
  | .corruption _ => .internal
  | .restoreTargetUnreachable _ _ => .internal

end StatusCode

/-- `magic(4) | version(2) | kind(1) | flags(1) | request_id(8) | len(4)` -/
def headerLen : ℕ := 20

structure Frame where
  kind : UInt8
  flags : UInt8
  requestId : UInt64
  body : Bytes
  deriving DecidableEq, Repr

/-- Eight hexadecimal digits. -/
def hex8 (n : ℕ) : String :=
  String.ofList ((List.range 8).reverse.map fun i => Nat.digitChar (n / 16 ^ i % 16))

namespace Frame

def new (kind : UInt8) (requestId : UInt64) (body : Bytes) : Frame := ⟨kind, 0, requestId, body⟩

def header (f : Frame) : Bytes :=
  leBytes 4 magic ++ leBytes 2 protocolVersion ++ [f.kind, f.flags] ++
    leBytes 8 f.requestId.toNat ++ leBytes 4 f.body.length

/-- The length is written in 32 bits, whatever it is. -/
def encode (f : Frame) : Bytes := f.header ++ f.body

/-- The number in the bytes from `i` on. -/
def field (buf : Bytes) (i n : ℕ) : ℕ := ofLeBytes ((buf.drop i).take n)

/-- Decode one frame, with the bytes it took. `none` is a buffer that holds only part of
one. -/
def decode (buf : Bytes) : Except Error (Option (Frame × ℕ)) :=
  if buf.length < headerLen then .ok none
  else if field buf 0 4 ≠ magic then
    .error (.corruption ("bad frame magic 0x" ++ hex8 (field buf 0 4) ++ "; expected 0x" ++
      hex8 magic))
  else if field buf 4 2 ≠ protocolVersion then
    .error (.corruption ("unsupported protocol version " ++ toString (field buf 4 2)))
  else if maxFrame < field buf 16 4 then
    .error (.corruption ("frame of " ++ toString (field buf 16 4) ++ " bytes exceeds the " ++
      toString maxFrame ++ "-byte limit"))
  else
    let total := headerLen + field buf 16 4
    if buf.length < total then .ok none
    else .ok (some
      ({ kind := buf.getD 6 0
         flags := buf.getD 7 0
         requestId := UInt64.ofNat (field buf 8 8)
         body := (buf.take total).drop headerLen }, total))

end Frame

end Adabt.Server

/-! ## Request and response bodies -/

namespace Adabt.Server
open Adabt.Core Adabt.Ir Adabt.Library Adabt.Storage

def recordCodec : RecordCodec := .new .dynamic

def encodeRecord (rec : Record) : Except Error Bytes := recordCodec.encode rec

def decodeRecord (bytes : Bytes) : Except Error Record := recordCodec.decode bytes

/-! ## Writing -/

namespace Writer

def u8 (v : UInt8) : Bytes := [v]

def u32 (n : ℕ) : Bytes := leBytes 4 n

def u64 (n : ℕ) : Bytes := leBytes 8 n

def bytes (b : Bytes) : Bytes := u32 b.length ++ b

def str (s : String) : Bytes := bytes (utf8 s)

def value (v : OrdValue) : Bytes := encodeValue v

def record (rec : Record) : Except Error Bytes := bytes <$> encodeRecord rec

end Writer

/-! ## Reading -/

namespace Reader

def short (what : String) : Error := .corruption ("request body ended while reading " ++ what)

def take (n : ℕ) (what : String) (buf : Bytes) : Except Error (Bytes × Bytes) :=
  if n ≤ buf.length then .ok (buf.take n, buf.drop n) else .error (short what)

def u8 (what : String) (buf : Bytes) : Except Error (UInt8 × Bytes) := do
  let (b, rest) ← take 1 what buf
  return (b.headD 0, rest)

def u32 (what : String) (buf : Bytes) : Except Error (ℕ × Bytes) := do
  let (b, rest) ← take 4 what buf
  return (ofLeBytes b, rest)

def u64 (what : String) (buf : Bytes) : Except Error (ℕ × Bytes) := do
  let (b, rest) ← take 8 what buf
  return (ofLeBytes b, rest)

def bytes (what : String) (buf : Bytes) : Except Error (Bytes × Bytes) := do
  let (n, rest) ← u32 what buf
  take n what rest

def str (what : String) (buf : Bytes) : Except Error (String × Bytes) := do
  let (b, rest) ← bytes what buf
  match decodeUtf8 b with
  | some s => return (s, rest)
  | none => .error (.corruption (what ++ " is not valid UTF-8"))

def value (buf : Bytes) : Except Error (OrdValue × Bytes) := do
  let (v, used) ← decodeValue buf
  return (v, buf.drop used)

def record (what : String) (buf : Bytes) : Except Error (Record × Bytes) := do
  let (b, rest) ← bytes what buf
  let rec ← decodeRecord b
  return (rec, rest)

def recordId (what : String) (buf : Bytes) : Except Error (RecordId × Bytes) := do
  let (n, rest) ← u64 what buf
  return (Fin.ofNat (2 ^ 64) n, rest)

/-- Fail if anything is left. -/
def done (buf : Bytes) : Except Error Unit :=
  if buf.isEmpty then .ok ()
  else .error (.corruption (toString buf.length ++ " unexpected trailing byte(s) in request body"))

end Reader

/-! ## The query subset -/

/-- A filtered scan. A limit of zero means none. -/
structure QuerySpec where
  collection : String
  filter : Option (String × CmpOp × OrdValue)
  limit : UInt32

def cmpCode : CmpOp → UInt8
  | .eq => 0
  | .ne => 1
  | .lt => 2
  | .le => 3
  | .gt => 4
  | .ge => 5

def cmpFromCode (c : UInt8) : Except Error CmpOp :=
  match c.toNat with
  | 0 => .ok .eq
  | 1 => .ok .ne
  | 2 => .ok .lt
  | 3 => .ok .le
  | 4 => .ok .gt
  | 5 => .ok .ge
  | other => .error (.corruption ("unknown comparison " ++ toString other))

namespace QuerySpec

def encodeFilter : Option (String × CmpOp × OrdValue) → Bytes
  | some (field, op, v) =>
    Writer.u8 1 ++ Writer.str field ++ Writer.u8 (cmpCode op) ++ Writer.value v
  | none => Writer.u8 0

def encode (q : QuerySpec) : Bytes :=
  Writer.str q.collection ++ encodeFilter q.filter ++ Writer.u32 q.limit.toNat

def decodeFilter (buf : Bytes) : Except Error (Option (String × CmpOp × OrdValue) × Bytes) := do
  let (flag, buf) ← Reader.u8 "filter flag" buf
  match flag.toNat with
  | 0 => return (none, buf)
  | 1 =>
    let (field, buf) ← Reader.str "filter field" buf
    let (code, buf) ← Reader.u8 "comparison" buf
    let op ← cmpFromCode code
    let (v, buf) ← Reader.value buf
    return (some (field, op, v), buf)
  | other => .error (.corruption ("filter flag must be 0 or 1, not " ++ toString other))

def decode (body : Bytes) : Except Error QuerySpec := do
  let (collection, buf) ← Reader.str "collection" body
  let (filter, buf) ← decodeFilter buf
  let (limit, buf) ← Reader.u32 "limit" buf
  Reader.done buf
  return ⟨collection, filter, UInt32.ofNat limit⟩

def toPlan (q : QuerySpec) : LogicalOp :=
  let op := LogicalOp.scan q.collection
  let op := match q.filter with
    | some (field, cmp, v) => op.filter (.compare cmp (.field field) (.literal v.1))
    | none => op
  if 0 < q.limit then op.limit q.limit.toUInt64 else op

end QuerySpec

/-! ## Rows -/

def encodeRowList : List (RecordId × Record) → Except Error Bytes
  | [] => .ok []
  | (id, rec) :: rows => do
    let b ← Writer.record rec
    let rest ← encodeRowList rows
    return Writer.u64 id ++ b ++ rest

def encodeRows (rows : List (RecordId × Record)) : Except Error Bytes :=
  (Writer.u32 rows.length ++ ·) <$> encodeRowList rows

def decodeRowList : ℕ → Bytes → Except Error (List (RecordId × Record) × Bytes)
  | 0, buf => .ok ([], buf)
  | n + 1, buf => do
    let (id, buf) ← Reader.recordId "row id" buf
    let (rec, buf) ← Reader.record "row" buf
    let (rows, buf) ← decodeRowList n buf
    return ((id, rec) :: rows, buf)

def decodeRows (body : Bytes) : Except Error (List (RecordId × Record)) := do
  let (n, buf) ← Reader.u32 "row count" body
  let (rows, buf) ← decodeRowList n buf
  Reader.done buf
  return rows

end Adabt.Server
