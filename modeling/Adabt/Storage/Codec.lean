import Adabt.Core.Schema
import Adabt.Library.Bytes
import Adabt.Storage.FixedSlot
import Mathlib.Data.Nat.Notation

/-! # Record encoding

Four layouts behind one header: tag-length-value for `Dynamic`, and a presence
bitmap with a fixed region for the rest, followed by an offset table and, for
`Declared`, an overflow bag. -/

set_option autoImplicit false

/-! ## Presence bitmap

One bit a field, eight fields a byte. A field past the end of the bitmap reads
as absent. -/

namespace Adabt.Storage
open Adabt.Library

def bitmapLen (fields : ℕ) : ℕ := (fields + 7) / 8

def bitMask (i : ℕ) : UInt8 := UInt8.ofNat (2 ^ (i % 8))

def bitSet (map : Bytes) (i : ℕ) : Bytes := map.modify (i / 8) (· ||| bitMask i)

def bitGet (map : Bytes) (i : ℕ) : Bool :=
  match map[i / 8]? with
  | some b => b &&& bitMask i ≠ 0
  | none => false

theorem bitMask_toBitVec (i : ℕ) : (bitMask i).toBitVec = BitVec.twoPow 8 (i % 8) := by
  apply BitVec.eq_of_toNat_eq
  rw [BitVec.toNat_twoPow, bitMask]
  simp

theorem and_bitMask (b : UInt8) (i : ℕ) :
    (b &&& bitMask i ≠ 0) ↔ b.toBitVec.getLsbD (i % 8) := by
  have hk : i % 8 < 8 := Nat.mod_lt _ (by decide)
  rw [ne_eq, ← UInt8.toBitVec_inj, UInt8.toBitVec_and, bitMask_toBitVec, BitVec.and_twoPow]
  cases h : b.toBitVec.getLsbD (i % 8)
  · simp
  · simp only [if_true, iff_true]
    intro h0
    have := congrArg (fun x => x.getLsbD (i % 8)) h0
    simp [hk] at this

theorem bitGet_eq (map : Bytes) (i : ℕ) :
    bitGet map i = (map[i / 8]?).any fun b => b.toBitVec.getLsbD (i % 8) := by
  rw [bitGet]
  cases map[i / 8]? with
  | none => rfl
  | some b => simp [and_bitMask]

@[simp] theorem bitSet_length (map : Bytes) (i : ℕ) : (bitSet map i).length = map.length :=
  List.length_modify _ _ _

theorem bitGet_bitSet (map : Bytes) (i j : ℕ) (hi : i / 8 < map.length) :
    bitGet (bitSet map i) j = (decide (i = j) || bitGet map j) := by
  rw [bitGet_eq, bitGet_eq, bitSet, List.getElem?_modify]
  have hj : j % 8 < 8 := Nat.mod_lt _ (by decide)
  by_cases hb : i / 8 = j / 8
  · rw [hb] at hi ⊢
    rw [List.getElem?_eq_getElem hi]
    have hiff : (j % 8 = i % 8) ↔ i = j := by omega
    simp [bitMask_toBitVec, hj, hiff, Bool.or_comm]
  · have : i ≠ j := fun h => hb (h ▸ rfl)
    simp [hb, this]

theorem bitGet_replicate (n i : ℕ) : bitGet (List.replicate n 0) i = false := by
  rw [bitGet_eq, List.getElem?_replicate]
  split <;> simp

end Adabt.Storage

/-! ## Layouts -/

namespace Adabt.Storage
open Adabt.Core Adabt.Library

def formatVersion : UInt8 := 1

def headerLen : ℕ := 10

def hasOverflow : UInt8 := 2

structure RecordHeader where
  version : UInt8
  flags : UInt8
  txn : UInt64
  deriving DecidableEq, Repr

namespace RecordHeader

def new : RecordHeader := ⟨formatVersion, 0, 0⟩

def write (h : RecordHeader) : Bytes := h.version :: h.flags :: leBytes 8 h.txn.toNat

def read (buf : Bytes) : Except Error RecordHeader :=
  if buf.length < headerLen then
    .error (.corruption ("record shorter than header: " ++ toString buf.length ++ " < " ++
      toString headerLen))
  else
    let version := buf.headD 0
    if version ≠ formatVersion then
      .error (.corruption ("unsupported record format version " ++ toString version.toNat))
    else
      .ok ⟨version, buf.getD 1 0, UInt64.ofNat (ofLeBytes ((buf.drop 2).take 8))⟩

end RecordHeader

structure FixedField where
  index : ℕ
  field : FieldDef
  width : UInt32
  offset : UInt32

structure VarField where
  index : ℕ
  field : FieldDef

/-- The fixed-width fields with their offsets, a running 32-bit sum. -/
def fixedFields : ℕ → UInt32 → List FieldDef → List FixedField
  | _, _, [] => []
  | i, off, f :: rest =>
    match f.ty.fixedWidth with
    | some w => ⟨i, f, w, off⟩ :: fixedFields (i + 1) (off + w) rest
    | none => fixedFields (i + 1) off rest

def varFields : ℕ → List FieldDef → List VarField
  | _, [] => []
  | i, f :: rest =>
    match f.ty.fixedWidth with
    | some _ => varFields (i + 1) rest
    | none => ⟨i, f⟩ :: varFields (i + 1) rest

def regionLen : UInt32 → List FieldDef → UInt32
  | off, [] => off
  | off, f :: rest => regionLen (off + f.ty.fixedWidth.getD 0) rest

structure RecordCodec where
  schema : Schema
  fixed : List FixedField
  variableWidth : List VarField
  fixedRegionLen : UInt32

def RecordCodec.new (schema : Schema) : RecordCodec :=
  ⟨schema, fixedFields 0 0 schema.fields, varFields 0 schema.fields, regionLen 0 schema.fields⟩

/-- The value of a field that is there and not null. -/
def present (rec : Record) (f : FieldDef) : Option OrdValue :=
  (rec.get f.name).filter fun v => !v.1.isNull

/-- An absent field still occupies its slot, so every offset is a constant. -/
def writeSlot (rec : Record) (f : FieldDef) (width : UInt32) : Except Error Bytes :=
  match present rec f with
  | some v => writeFixedSlot f.ty v.1 width
  | none => .ok (List.replicate width.toNat 0)

def writeFixedRegion (rec : Record) : List FixedField → Except Error Bytes
  | [] => .ok []
  | x :: xs => do
    let slot ← writeSlot rec x.field x.width
    let rest ← writeFixedRegion rec xs
    return slot ++ rest

def writePresent (rec : Record) (f : FieldDef) : Bytes :=
  match present rec f with
  | some v => writeTlv v.1
  | none => []

/-- Where each variable field starts, with a sentinel for the end of the last. -/
def varOffsets (rec : Record) : List VarField → ℕ → List ℕ
  | [], pos => [pos]
  | x :: xs, pos => pos :: varOffsets rec xs (pos + (writePresent rec x.field).length)

def writeVariable (rec : Record) : List VarField → Bytes
  | [] => []
  | x :: xs => writePresent rec x.field ++ writeVariable rec xs

def writeTable (offsets : List ℕ) : Bytes := offsets.flatMap (leBytes 4)

def setBits (rec : Record) : ℕ → List FieldDef → Bytes → Bytes
  | _, [], map => map
  | i, f :: rest, map =>
    setBits rec (i + 1) rest (if (present rec f).isSome then bitSet map i else map)

def presenceBits (rec : Record) (fields : List FieldDef) : Bytes :=
  setBits rec 0 fields (List.replicate (bitmapLen fields.length) 0)

namespace RecordCodec

def overflow (c : RecordCodec) (rec : Record) : List (String × Value) :=
  if c.schema.mode.allowsExtraFields then
    (rawEntries rec).filter fun e => (c.schema.field e.1).isNone
  else []

def writeBag (bag : List (String × Value)) : Bytes := writeLen bag.length ++ writeEntries bag

/-- The bytes `encode_with_header` leaves in `out`. -/
def encodeWithHeader (c : RecordCodec) (rec : Record) (header : RecordHeader) (out : Bytes) :
    Except Error Bytes :=
  if c.schema.mode = .dynamic then
    .ok (out ++ header.write ++ writeBag (rawEntries rec))
  else do
    let bag := c.overflow rec
    let header := if bag.isEmpty then header else { header with flags := header.flags ||| hasOverflow }
    let region ← writeFixedRegion rec c.fixed
    let head := out ++ header.write ++ presenceBits rec c.schema.fields ++ region
    if c.schema.mode = .fixed then return head
    else
      let dataAt := head.length + 4 * (c.variableWidth.length + 1)
      return head ++ writeTable (varOffsets rec c.variableWidth dataAt) ++
        writeVariable rec c.variableWidth ++ (if bag.isEmpty then [] else writeBag bag)

def encode (c : RecordCodec) (rec : Record) : Except Error Bytes :=
  c.encodeWithHeader rec .new []

def slice (buf : Bytes) (lo hi : ℕ) : Bytes := (buf.drop lo).take (hi - lo)

def readFixedFields (buf bitmap : Bytes) (fixedAt : ℕ) :
    ℕ → List FixedField → Record → Except Error Record
  | _, [], rec => .ok rec
  | k, x :: xs, rec =>
    if bitGet bitmap x.index then
      let start := fixedAt + x.offset.toNat
      let stop := start + x.width.toNat
      if buf.length < stop then
        .error (.corruption ("fixed field " ++ toString k ++ " extends past the record"))
      else do
        let v ← readFixedField x.field.ty (slice buf start stop)
        readFixedFields buf bitmap fixedAt (k + 1) xs (rec.set x.field.name v)
    else readFixedFields buf bitmap fixedAt (k + 1) xs rec

def offsetAt (buf : Bytes) (tableAt k : ℕ) : ℕ :=
  ofLeBytes (slice buf (tableAt + 4 * k) (tableAt + 4 * k + 4))

/-- Check that the offsets ascend, and return the last of them. -/
def checkOffsets : ℕ → List ℕ → Except Error ℕ
  | last, [] => .ok last
  | last, next :: rest =>
    if next < last then .error (.corruption "offset table is not monotonically increasing")
    else checkOffsets next rest

def readVarFields (buf bitmap : Bytes) (tableAt : ℕ) :
    ℕ → List VarField → Record → Except Error Record
  | _, [], rec => .ok rec
  | k, x :: xs, rec =>
    if bitGet bitmap x.index then do
      let (v, _) ← readTlvValue 0
        (.new (slice buf (offsetAt buf tableAt k) (offsetAt buf tableAt (k + 1))))
      readVarFields buf bitmap tableAt (k + 1) xs (rec.set x.field.name v)
    else readVarFields buf bitmap tableAt (k + 1) xs rec

/-- A counted run of named values, as in a dynamic record or an overflow bag. -/
def readBag (what : String) (rec : Record) (c : Cursor) : Except Error Record := do
  let (n, c) ← c.varint
  ensure (n.toNat ≤ c.remaining) (.corruption (what ++ " declares " ++ toString n.toNat ++
    " fields but only " ++ toString c.remaining ++ " bytes remain"))
  let (rec, _) ← readEntries (readTlvValue 0) n.toNat rec c
  return rec

def readTail (c : RecordCodec) (buf bitmap : Bytes) (flags : UInt8) (tableAt : ℕ)
    (rec : Record) : Except Error Record := do
  let entries := c.variableWidth.length + 1
  ensure (tableAt + 4 * entries ≤ buf.length)
    (.corruption "record too short for its offset table")
  let last ← checkOffsets (offsetAt buf tableAt 0)
    ((List.range' 1 c.variableWidth.length).map (offsetAt buf tableAt))
  ensure (last ≤ buf.length) (.corruption "offset table points past the end of the record")
  let rec ← readVarFields buf bitmap tableAt 0 c.variableWidth rec
  if flags &&& hasOverflow ≠ 0 then readBag "overflow" rec (.new (buf.drop last))
  else return rec

def decodeWithHeader (c : RecordCodec) (buf : Bytes) : Except Error (RecordHeader × Record) := do
  let header ← RecordHeader.read buf
  if c.schema.mode = .dynamic then
    let (_, cur) ← (Cursor.new buf).take headerLen
    let rec ← readBag "record" ∅ cur
    return (header, rec)
  else
    let bmLen := bitmapLen c.schema.fields.length
    ensure (headerLen + bmLen ≤ buf.length)
      (.corruption "record too short for its presence bitmap")
    let bitmap := slice buf headerLen (headerLen + bmLen)
    let fixedAt := headerLen + bmLen
    let rec ← readFixedFields buf bitmap fixedAt 0 c.fixed ∅
    if c.schema.mode = .fixed then return (header, rec)
    else
      let rec ← c.readTail buf bitmap header.flags (fixedAt + c.fixedRegionLen.toNat) rec
      return (header, rec)

def decode (c : RecordCodec) (buf : Bytes) : Except Error Record := do
  let (_, rec) ← c.decodeWithHeader buf
  return rec

end RecordCodec

/-- Whether every record already stored under `old` still decodes under `new`
with no byte touched, as the store decides it. -/
def schemaEditableInPlace (old new : Schema) : Bool :=
  let of := old.fields
  let nf := new.fields
  if old.mode ≠ new.mode then false
  else match old.mode with
    | .dynamic | .declared => false
    | .fixed =>
      if nf.length = of.length + 1 ∧ nf.take of.length = of then
        (nf.getLast?.map (·.nullable)).getD false && bitmapLen nf.length == bitmapLen of.length
      else of.length = nf.length + 1 ∧ of.take nf.length = nf
    | .strict =>
      of.length = nf.length + 1 ∧ of.take nf.length = nf ∧
        (of.getLast?.map (·.ty.fixedWidth)) = some none

end Adabt.Storage
