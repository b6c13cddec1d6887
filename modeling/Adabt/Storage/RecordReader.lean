import Adabt.Storage.Peek
import Adabt.Storage.ValueReader

/-! # Records, read by position

The record decoders as the code has them: sums in machine words, and indices and
slices that end the program where there is nothing there. On every buffer that fits
in memory they answer as the decoders without either do. What they answer rests on
the bytes the record says it has. -/

set_option autoImplicit false

namespace Adabt.Storage
open Adabt.Core Adabt.Library

/-- A sum or product of `usize`s. -/
def usize (what : String) (n : ℕ) : Except Fault ℕ := Build.checked.word what n

/-! ## The decoders -/

namespace RecordHeader

def readChecked (buf : Bytes) : Except Fault RecordHeader :=
  if buf.length < headerLen then
    .error (.error (.corruption ("record shorter than header: " ++ toString buf.length ++ " < " ++
      toString headerLen)))
  else do
    let version ← Slice.index buf 0
    if version ≠ formatVersion then
      .error (.error (.corruption ("unsupported record format version " ++ toString version.toNat)))
    else do
      let raw ← Slice.range buf 2 10
      let txn ← Slice.exactly 8 raw
      let flags ← Slice.index buf 1
      return ⟨version, flags, UInt64.ofNat (ofLeBytes txn)⟩

end RecordHeader

namespace Checked
open Cursor.Checked

def capacityExceeded (len capacity : ℕ) : Error :=
  .corruption ("fixed slot declares length " ++ toString len ++ " beyond capacity " ++
    toString capacity)

def readLead (w : UInt32) : BufferReader ℕ := do
  let raw ← take (leadLen w)
  let le ← Reading.checked (Slice.copy (List.replicate 4 0) 0 (leadLen w) raw)
  let capacity ← Reading.checked (minus w.toNat (leadLen w))
  if capacity < ofLeBytes le then throw (.error (capacityExceeded (ofLeBytes le) capacity))
  else return ofLeBytes le

/-- The reader of a slot, for the types that have one. -/
def slotReader (ty : FieldType) : Option (BufferReader OrdValue) :=
  match ty with
  | .bool => some do
    let b ← u8
    return ⟨.bool (b ≠ 0), trivial⟩
  | .i64 => some do
    let n ← u64
    return ⟨.i64 n.toInt64, trivial⟩
  | .u64 => some do
    let n ← u64
    return ⟨.u64 n, trivial⟩
  | .f64 => some do
    let n ← u64
    return ⟨.f64 ⟨n⟩, trivial⟩
  | .timestamp => some do
    let n ← u64
    return ⟨.timestamp n.toInt64, trivial⟩
  | .decimal scale => some do
    let n ← BufferReader.number (refuse 16) 16
    return ⟨.decimal (BitVec.ofNat 128 n) scale, trivial⟩
  | .char w => some do
    let len ← readLead w
    let s ← string len
    return ⟨.str s, trivial⟩
  | .fixedBytes w => some do
    let len ← readLead w
    let b ← take len
    return ⟨.bytes b, trivial⟩
  | _ => none

def readFixedField (ty : FieldType) (buf : Bytes) : Except Fault OrdValue :=
  match slotReader ty with
  | some read => read.runOn buf
  | none => .error (.error (notFixedWidth ty))

def readFixedFields (buf bitmap : Bytes) (fixedAt : ℕ) :
    ℕ → List FixedField → Record → Except Fault Record
  | _, [], rec => .ok rec
  | k, x :: xs, rec =>
    if bitGet bitmap x.index then do
      let start ← usize "add" (fixedAt + x.offset.toNat)
      let stop ← usize "add" (start + x.width.toNat)
      if buf.length < stop then
        .error (.error (.corruption ("fixed field " ++ toString k ++ " extends past the record")))
      else do
        let b ← Slice.range buf start stop
        let v ← readFixedField x.field.ty b
        readFixedFields buf bitmap fixedAt (k + 1) xs (rec.set x.field.name v)
    else readFixedFields buf bitmap fixedAt (k + 1) xs rec

def offsetAt (buf : Bytes) (tableAt k : ℕ) : Except Fault ℕ := do
  let d ← usize "multiply" (4 * k)
  let start ← usize "add" (tableAt + d)
  let b0 ← Slice.index buf start
  let b1 ← Slice.index buf (← usize "add" (start + 1))
  let b2 ← Slice.index buf (← usize "add" (start + 2))
  let b3 ← Slice.index buf (← usize "add" (start + 3))
  return ofLeBytes [b0, b1, b2, b3]

def checkOffsets (buf : Bytes) (tableAt : ℕ) : ℕ → List ℕ → Except Fault ℕ
  | last, [] => .ok last
  | last, k :: ks => do
    let next ← offsetAt buf tableAt k
    if next < last then
      .error (.error (.corruption "offset table is not monotonically increasing"))
    else checkOffsets buf tableAt next ks

def readVarFields (buf bitmap : Bytes) (tableAt : ℕ) :
    ℕ → List VarField → Record → Except Fault Record
  | _, [], rec => .ok rec
  | k, x :: xs, rec =>
    if bitGet bitmap x.index then do
      let lo ← offsetAt buf tableAt k
      let hi ← offsetAt buf tableAt (k + 1)
      let b ← Slice.range buf lo hi
      let v ← readTlvValue.runOn b
      readVarFields buf bitmap tableAt (k + 1) xs (rec.set x.field.name v)
    else readVarFields buf bitmap tableAt (k + 1) xs rec

def readBag (what : String) (rec : Record) : BufferReader Record := do
  let n ← varint
  Reading.ensureLeft n.toNat fun left => .error (.corruption (what ++ " declares " ++
    toString n.toNat ++ " fields but only " ++ toString left ++ " bytes remain"))
  readEntries readTlvValue n.toNat rec

/-- A dynamic record, behind its header. -/
def readDynamic : BufferReader Record := do
  let _ ← take headerLen
  readBag "record" ∅

def readTail (c : RecordCodec) (buf bitmap : Bytes) (flags : UInt8) (tableAt : ℕ)
    (rec : Record) : Except Fault Record := do
  let entries ← usize "add" (c.variableWidth.length + 1)
  let len ← usize "multiply" (4 * entries)
  let stop ← usize "add" (tableAt + len)
  ensure (stop ≤ buf.length) (.error (.corruption "record too short for its offset table"))
  let first ← offsetAt buf tableAt 0
  let last ← checkOffsets buf tableAt first (List.range' 1 c.variableWidth.length)
  ensure (last ≤ buf.length)
    (.error (.corruption "offset table points past the end of the record"))
  let rec ← readVarFields buf bitmap tableAt 0 c.variableWidth rec
  if flags &&& hasOverflow ≠ 0 then
    let rest ← Slice.rangeFrom buf last
    (readBag "overflow" rec).runOn rest
  else return rec

def decodeWithHeader (c : RecordCodec) (buf : Bytes) : Except Fault (RecordHeader × Record) := do
  let header ← RecordHeader.readChecked buf
  if c.schema.mode = .dynamic then
    let rec ← readDynamic.runOn buf
    return (header, rec)
  else
    let bmLen := bitmapLen c.schema.fields.length
    let fixedAt ← usize "add" (headerLen + bmLen)
    ensure (fixedAt ≤ buf.length)
      (.error (.corruption "record too short for its presence bitmap"))
    let bitmap ← Slice.range buf headerLen fixedAt
    let rec ← readFixedFields buf bitmap fixedAt 0 c.fixed ∅
    if c.schema.mode = .fixed then return (header, rec)
    else
      let tableAt ← usize "add" (fixedAt + c.fixedRegionLen.toNat)
      let rec ← readTail c buf bitmap header.flags tableAt rec
      return (header, rec)

def peekNamed (field : String) : ℕ → BufferReader (Option OrdValue)
  | 0 => return none
  | n + 1 => do
    let klen ← varint
    let raw ← take klen.toNat
    let v ← readTlvValue
    if raw = utf8 field then return some v else peekNamed field n

def peekDynamic (field : String) : BufferReader (Option OrdValue) := do
  let _ ← take headerLen
  let n ← varint
  peekNamed field n.toNat

def peekSlot (c : RecordCodec) (buf : Bytes) (fixedAt i : ℕ) (f : FieldDef) (width : UInt32) :
    Except Fault (Option OrdValue) := do
  let start ← usize "add" (fixedAt + (c.fixedOffset i).toNat)
  let stop ← usize "add" (start + width.toNat)
  ensure (stop ≤ buf.length)
    (.error (.corruption ("fixed field " ++ toString i ++ " extends past the record")))
  let b ← Slice.range buf start stop
  let v ← readFixedField f.ty b
  return some v

def peekVariable (c : RecordCodec) (buf : Bytes) (fixedAt i : ℕ) :
    Except Fault (Option OrdValue) := do
  match c.variableWidth.findIdx? (·.index = i) with
  | none => .error (.panicked "variable field indexed")
  | some k =>
    let tableAt ← usize "add" (fixedAt + c.fixedRegionLen.toNat)
    let entries ← usize "add" (c.variableWidth.length + 1)
    let len ← usize "multiply" (4 * entries)
    let stop ← usize "add" (tableAt + len)
    ensure (stop ≤ buf.length) (.error (.corruption "record too short for its offset table"))
    let lo ← offsetAt buf tableAt k
    let hi ← offsetAt buf tableAt (k + 1)
    ensure (lo ≤ hi ∧ hi ≤ buf.length)
      (.error (.corruption ("offset table entry " ++ toString k ++ " is out of range")))
    let b ← Slice.range buf lo hi
    let v ← readTlvValue.runOn b
    return some v

def peekField (c : RecordCodec) (buf : Bytes) (field : String) :
    Except Fault (Option OrdValue) :=
  if c.schema.mode = .dynamic then (peekDynamic field).runOn buf
  else
    match RecordCodec.position c.schema.fields field with
    | none => .ok none
    | some (f, i) => do
      let bmLen := bitmapLen c.schema.fields.length
      let fixedAt ← usize "add" (headerLen + bmLen)
      ensure (fixedAt ≤ buf.length)
        (.error (.corruption "record too short for its presence bitmap"))
      let bitmap ← Slice.range buf headerLen fixedAt
      if bitGet bitmap i then
        match f.ty.fixedWidth with
        | some w => peekSlot c buf fixedAt i f w
        | none => peekVariable c buf fixedAt i
      else return none

def peekInto (c : RecordCodec) (buf : Bytes) : List String → Record → Except Fault Record
  | [], out => .ok out
  | f :: rest, out => do
    match ← peekField c buf f with
    | some v => peekInto c buf rest (out.set f v)
    | none => peekInto c buf rest out

def peekFields (c : RecordCodec) (buf : Bytes) (fields : List String) : Except Fault Record :=
  peekInto c buf fields ∅

end Checked

/-! ## The decoders without machine words -/

/-- The buffer is a slice and the fields a vector of a 64-bit machine: neither is longer
than `isize::MAX` bytes, and a field takes more than 32 of them. -/
structure InMemory (s : Schema) (buf : Bytes) : Prop where
  bytes : buf.length < 2 ^ 63
  fields : s.fields.length < 2 ^ 58

theorem usize_ok {what : String} {n : ℕ} (h : n < 2 ^ 64) : usize what n = .ok n :=
  Build.word_ok _ _ h

abbrev LiftsFault {α : Type} (old : Except Error α) (new : Except Fault α) : Prop :=
  Lifts Fault.error old new

abbrev AnswersCursor {α : Type} (old : Cursor → Except Error α) (x : BufferReader α) : Prop :=
  Reading.Answers Cursor.at Fault.error old x

theorem RecordHeader.readChecked_lifts (buf : Bytes) : LiftsFault (read buf) (readChecked buf) := by
  rw [read, readChecked]
  refine .ite (fun _ => lifts_error _) fun hlen => ?_
  rw [headerLen] at hlen
  obtain ⟨version, flags, rest, rfl⟩ : ∃ version flags rest, buf = version :: flags :: rest := by
    rcases buf with _ | ⟨version, _ | ⟨flags, rest⟩⟩
    · exact absurd (Nat.zero_lt_succ _) hlen
    · exact absurd (show 1 < 10 by decide) hlen
    · exact ⟨version, flags, rest, rfl⟩
  have hraw : (slice (version :: flags :: rest) 2 8).length = 8 := length_slice (by omega)
  rw [Slice.index_ok (Nat.zero_lt_succ _), ok_bind]
  refine .ite (fun _ => lifts_error _) fun _ => ?_
  rw [Slice.range_ok (by decide) (by omega), ok_bind, Slice.exactly_ok hraw, ok_bind,
    Slice.index_ok (by rw [List.length_cons, List.length_cons]; omega)]
  exact lifts_ok _

namespace Checked
open Cursor.Checked Reading

/-! ### Slots -/

theorem leadLen_le_four (w : UInt32) : leadLen w ≤ 4 := by
  unfold leadLen FieldType.lengthPrefixBytes
  split_ifs <;> decide

theorem lead_padded (raw : Bytes) :
    ofLeBytes (splice (List.replicate 4 0) 0 raw) = ofLeBytes raw := by
  rw [splice, List.take_zero, List.nil_append, ofLeBytes_append, Nat.zero_add, List.drop_replicate,
    ofLeBytes_replicate_zero, Nat.mul_zero, Nat.add_zero]

theorem mirrors_readLead {w : UInt32} (h : leadLen w ≤ w.toNat) :
    MirrorsCursor (Storage.readLead w) (readLead w) := by
  refine (mirrors_take (leadLen w)).bind_of (fun _ _ _ => length_of_take) fun raw hraw => ?_
  have hfour := leadLen_le_four w
  rw [Slice.copy_ok (by omega) (by rw [List.length_replicate]; omega), minus_ok h]
  change Mirrors _ _ _ (if _ then _ else _)
  rw [lead_padded raw]
  exact .ite (mirrors_throw _) (mirrors_pure _)

/-- A text slot is wide enough for its length. -/
def RoomForLead (ty : FieldType) : Prop := ∀ w, ty.fixedWidth = some w → ty.IsText → leadLen w ≤ w.toNat

theorem answers_number {α : Type} (n : ℕ) (g : ℕ → α) :
    AnswersCursor (fun c => Cursor.take n c >>= fun r => .ok (g (ofLeBytes r.1)))
      (BufferReader.number (refuse n) n >>= fun m => pure (g m)) := by
  rw [BufferReader.number, bind_assoc]
  refine Answers.bind_of (fun _ _ _ => length_of_take) (mirrors_take n) fun b hb => ?_
  rw [Slice.exactly_ok hb]
  exact answers_pure (g (ofLeBytes b))

theorem readFixedField_lifts {ty : FieldType} (h : RoomForLead ty) (buf : Bytes) :
    LiftsFault (Storage.readFixedField ty buf) (readFixedField ty buf) := by
  cases ty with
  | bool => exact (Answers.bind mirrors_u8 fun b => answers_pure _).runOn buf
  | i64 => exact (Answers.bind mirrors_u64 fun n => answers_pure _).runOn buf
  | u64 => exact (Answers.bind mirrors_u64 fun n => answers_pure _).runOn buf
  | f64 => exact (Answers.bind mirrors_u64 fun n => answers_pure _).runOn buf
  | timestamp => exact (Answers.bind mirrors_u64 fun n => answers_pure _).runOn buf
  | decimal scale =>
    exact (answers_number 16 fun n =>
      (⟨.decimal (BitVec.ofNat 128 n) scale, trivial⟩ : OrdValue)).runOn buf
  | char w =>
    exact (Answers.bind (mirrors_readLead (h w rfl rfl)) fun len =>
      .bind (mirrors_string len) fun s => answers_pure _).runOn buf
  | fixedBytes w =>
    exact (Answers.bind (mirrors_readLead (h w rfl rfl)) fun len =>
      .bind (mirrors_take len) fun b => answers_pure _).runOn buf
  | str m => exact lifts_error _
  | bytes m => exact lifts_error _
  | list inner => exact lifts_error _
  | map => exact lifts_error _
  | any => exact lifts_error _

theorem readFixedFields_lifts {buf bitmap : Bytes} {fixedAt : ℕ} (hfixed : fixedAt < 2 ^ 62)
    (xs : List FixedField) (k : ℕ) (rec : Record)
    (hroom : ∀ x ∈ xs, RoomForLead x.field.ty) :
    LiftsFault (RecordCodec.readFixedFields buf bitmap fixedAt k xs rec)
      (readFixedFields buf bitmap fixedAt k xs rec) := by
  induction xs generalizing k rec with
  | nil => exact lifts_ok rec
  | cons x xs ih =>
    obtain ⟨hx, hxs⟩ := List.forall_mem_cons.mp hroom
    have hoffset := x.offset.toNat_lt
    have hwidth := x.width.toNat_lt
    rw [RecordCodec.readFixedFields, readFixedFields]
    refine .ite (fun _ => ?_) fun _ => ih (k + 1) rec hxs
    rw [usize_ok (by omega), ok_bind, usize_ok (by omega), ok_bind]
    refine .ite (fun _ => lifts_error _) fun hstop => ?_
    rw [Slice.range_ok (by omega) (by omega), ok_bind]
    exact (readFixedField_lifts hx _).bind fun v _ => ih (k + 1) _ hxs

/-! ### The offset table -/

theorem four_bytes {buf : Bytes} {start : ℕ} (h : start + 4 ≤ buf.length) :
    RecordCodec.slice buf start (start + 4) =
      [buf[start], buf[start + 1], buf[start + 2], buf[start + 3]] := by
  rw [RecordCodec.slice, Nat.add_sub_cancel_left, List.drop_eq_getElem_cons (by omega),
    List.drop_eq_getElem_cons (by omega), List.drop_eq_getElem_cons (by omega),
    List.drop_eq_getElem_cons (by omega)]
  rfl

theorem offsetAt_eq {buf : Bytes} {tableAt k : ℕ} (hbuf : buf.length < 2 ^ 63)
    (h : tableAt + 4 * k + 4 ≤ buf.length) :
    offsetAt buf tableAt k = .ok (RecordCodec.offsetAt buf tableAt k) := by
  rw [offsetAt, usize_ok (by omega), ok_bind, usize_ok (by omega), ok_bind,
    Slice.index_ok (by omega), ok_bind, usize_ok (by omega), ok_bind, Slice.index_ok (by omega),
    ok_bind, usize_ok (by omega), ok_bind, Slice.index_ok (by omega), ok_bind,
    usize_ok (by omega), ok_bind, Slice.index_ok (by omega), ok_bind, RecordCodec.offsetAt,
    four_bytes h]
  rfl

theorem checkOffsets_lifts {buf : Bytes} {tableAt : ℕ} (hbuf : buf.length < 2 ^ 63) (ks : List ℕ)
    (last : ℕ) (hks : ∀ k ∈ ks, tableAt + 4 * k + 4 ≤ buf.length) :
    LiftsFault (RecordCodec.checkOffsets last (ks.map (RecordCodec.offsetAt buf tableAt)))
      (checkOffsets buf tableAt last ks) := by
  induction ks generalizing last with
  | nil => exact lifts_ok last
  | cons k ks ih =>
    obtain ⟨hk, hks⟩ := List.forall_mem_cons.mp hks
    rw [List.map_cons, RecordCodec.checkOffsets, checkOffsets, offsetAt_eq hbuf hk, ok_bind]
    exact .ite (fun _ => lifts_error _) fun _ => ih _ hks

/-- Offsets that were checked ascend up to the last of them. -/
theorem checkOffsets_ascend {offset : ℕ → ℕ} {n j last : ℕ}
    (h : RecordCodec.checkOffsets (offset j) ((List.range' (j + 1) n).map offset) = .ok last) :
    offset (j + n) = last ∧ ∀ k, j ≤ k → k ≤ j + n → offset k ≤ last ∧
      (k < j + n → offset k ≤ offset (k + 1)) := by
  induction n generalizing j with
  | zero =>
    cases h
    refine ⟨rfl, fun k hk hk' => ?_⟩
    rw [show k = j by omega]
    exact ⟨Nat.le_refl _, fun hlt => absurd hlt (Nat.lt_irrefl _)⟩
  | succ n ih =>
    rw [List.range'_succ, List.map_cons, RecordCodec.checkOffsets] at h
    split_ifs at h with hlt
    obtain ⟨hlast, hall⟩ := ih h
    rw [show j + 1 + n = j + (n + 1) by omega] at hlast hall
    refine ⟨hlast, fun k hk hk' => ?_⟩
    rcases Nat.eq_or_lt_of_le hk with rfl | hk
    · have hnext := (hall (j + 1) (by omega) (by omega)).1
      exact ⟨by omega, fun _ => by omega⟩
    · exact hall k hk hk'

theorem readTlvValue_lifts (buf : Bytes) :
    LiftsFault (Storage.readTlvValue 0 (.new buf) >>= fun r => .ok r.1) (readTlvValue.runOn buf) :=
  mirrors_readTlvValue.answers.runOn buf

theorem readVarFields_lifts {buf bitmap : Bytes} {tableAt n : ℕ} (hbuf : buf.length < 2 ^ 63)
    (htable : tableAt + 4 * (n + 1) ≤ buf.length)
    (hoffsets : ∀ k < n, RecordCodec.offsetAt buf tableAt k ≤ RecordCodec.offsetAt buf tableAt (k + 1) ∧
      RecordCodec.offsetAt buf tableAt (k + 1) ≤ buf.length)
    (xs : List VarField) (k : ℕ) (hk : k + xs.length ≤ n) (rec : Record) :
    LiftsFault (RecordCodec.readVarFields buf bitmap tableAt k xs rec)
      (readVarFields buf bitmap tableAt k xs rec) := by
  induction xs generalizing k rec with
  | nil => exact lifts_ok rec
  | cons x xs ih =>
    rw [List.length_cons] at hk
    rw [RecordCodec.readVarFields, readVarFields]
    refine .ite (fun _ => ?_) fun _ => ih (k + 1) (by omega) rec
    obtain ⟨hle, hin⟩ := hoffsets k (by omega)
    rw [offsetAt_eq hbuf (by omega), ok_bind, offsetAt_eq hbuf (by omega), ok_bind,
      Slice.range_ok hle hin, ok_bind]
    exact (readTlvValue_lifts _).bind_part fun r _ => ih (k + 1) (by omega) _

/-! ### Records -/

theorem answers_readBag (what : String) (rec : Record) :
    AnswersCursor (RecordCodec.readBag what rec) (readBag what rec) :=
  Answers.bind mirrors_varint fun n => Answers.ensureLeft Cursor.at_remaining
    (fun buf pos => by rw [Cursor.at_remaining])
    (mirrors_entries mirrors_readTlvValue n.toNat rec).answers

theorem readDynamic_lifts (buf : Bytes) :
    LiftsFault ((Cursor.new buf).take headerLen >>= fun r => RecordCodec.readBag "record" ∅ r.2)
      (readDynamic.runOn buf) :=
  (Answers.bind (mirrors_take headerLen) fun _ => answers_readBag "record" ∅).runOn buf

theorem readTail_lifts {c : RecordCodec} {buf bitmap : Bytes} {flags : UInt8} {tableAt : ℕ}
    (hbuf : buf.length < 2 ^ 63) (htable : tableAt < 2 ^ 62)
    (hvars : c.variableWidth.length < 2 ^ 59) (rec : Record) :
    LiftsFault (c.readTail buf bitmap flags tableAt rec)
      (readTail c buf bitmap flags tableAt rec) := by
  rw [RecordCodec.readTail, readTail, usize_ok (by omega), ok_bind, usize_ok (by omega), ok_bind,
    usize_ok (by omega), ok_bind]
  refine (lifts_ensure _).bind fun u hu => ?_
  have hroom : tableAt + 4 * (c.variableWidth.length + 1) ≤ buf.length := ensure_eq_ok.mp hu
  rw [offsetAt_eq hbuf (by omega), ok_bind]
  refine (checkOffsets_lifts hbuf _ _ fun k hk => ?_).bind fun last hlast => ?_
  · have := List.mem_range'_1.mp hk
    omega
  obtain ⟨hend, hall⟩ := checkOffsets_ascend hlast
  refine (lifts_ensure _).bind fun u hu => ?_
  have hin : last ≤ buf.length := ensure_eq_ok.mp hu
  refine (readVarFields_lifts hbuf hroom (fun k hk => ?_) _ 0 (by omega) rec).bind fun rec' _ => ?_
  · have hnext := (hall (k + 1) (by omega) (by omega)).1
    exact ⟨(hall k (by omega) (by omega)).2 (by omega), by omega⟩
  refine .ite (fun _ => ?_) fun _ => lifts_ok rec'
  rw [Slice.rangeFrom_ok hin, ok_bind]
  exact (answers_readBag "overflow" rec').runOn (buf.drop last)

theorem roomForLead {s : Schema} {f : FieldDef} (hf : f ∈ s.fields) : RoomForLead f.ty := by
  intro w hw htext
  have hcapacity := (s.fieldsValid.2 f hf).capacity htext
  have hsub : FieldType.lengthPrefixBytes w ≤ w := by
    by_contra hlt
    apply hcapacity
    cases hty : f.ty with
    | char n =>
      rw [hty] at hw
      cases hw
      rw [FieldType.contentCapacity, if_neg hlt]
      rfl
    | fixedBytes n =>
      rw [hty] at hw
      cases hw
      rw [FieldType.contentCapacity, if_neg hlt]
      rfl
    | _ =>
      rw [hty] at htext
      cases htext
  exact UInt32.le_iff_toNat_le.mp hsub

variable {s : Schema} {buf : Bytes}

theorem bitmap_fits (h : InMemory s buf) :
    headerLen + bitmapLen (RecordCodec.new s).schema.fields.length < 2 ^ 60 := by
  have := h.fields
  change 10 + (s.fields.length + 7) / 8 < _
  omega

theorem variables_fit (h : InMemory s buf) : (RecordCodec.new s).variableWidth.length < 2 ^ 59 := by
  have := h.fields
  have : (RecordCodec.new s).variableWidth.length ≤ s.fields.length :=
    varFields_length_le 0 s.fields
  omega

theorem fixed_roomy {x : FixedField} (hx : x ∈ (RecordCodec.new s).fixed) :
    RoomForLead x.field.ty := by
  obtain ⟨j, -, hj⟩ := fixedFields_index 0 0 s.fields x hx
  exact roomForLead (List.mem_of_getElem? hj)

theorem decodeWithHeader_lifts (h : InMemory s buf) :
    LiftsFault ((RecordCodec.new s).decodeWithHeader buf) (decodeWithHeader (.new s) buf) := by
  have hbitmap := bitmap_fits h
  have hregion := (RecordCodec.new s).fixedRegionLen.toNat_lt
  rw [RecordCodec.decodeWithHeader, decodeWithHeader]
  refine (RecordHeader.readChecked_lifts buf).bind fun header _ => ?_
  refine .ite (fun _ => ?_) fun _ => ?_
  · rw [← bind_assoc]
    exact (readDynamic_lifts buf).bind fun rec _ => lifts_ok _
  dsimp only
  rw [usize_ok (by omega), ok_bind]
  refine (lifts_ensure _).bind fun u hu => ?_
  have hin := ensure_eq_ok.mp hu
  rw [Slice.range_ok (by omega) hin, ok_bind]
  refine (readFixedFields_lifts (by omega) _ 0 ∅ fun x hx => fixed_roomy hx).bind fun rec _ => ?_
  refine .ite (fun _ => lifts_ok _) fun _ => ?_
  rw [usize_ok (by omega), ok_bind]
  exact (readTail_lifts h.bytes (by omega) (variables_fit h) rec).bind fun rec' _ => lifts_ok _

/-! ### Single fields -/

theorem answers_peekNamed (field : String) (n : ℕ) :
    AnswersCursor (RecordCodec.peekNamed field n) (peekNamed field n) := by
  induction n with
  | zero => exact answers_pure none
  | succ n ih =>
    exact Answers.bind mirrors_varint fun klen => .bind (mirrors_take klen.toNat) fun raw =>
      .bind mirrors_readTlvValue fun v => .ite (answers_pure (some v)) ih

theorem peekDynamic_lifts (field : String) (buf : Bytes) :
    LiftsFault ((Cursor.new buf).take headerLen >>= fun r => r.2.varint >>= fun r =>
      RecordCodec.peekNamed field r.1.toNat r.2) ((peekDynamic field).runOn buf) :=
  (Answers.bind (mirrors_take headerLen) fun _ => .bind mirrors_varint fun n =>
    answers_peekNamed field n.toNat).runOn buf

theorem peekSlot_lifts {c : RecordCodec} {fixedAt i : ℕ} {f : FieldDef} {w : UInt32}
    (hfixed : fixedAt < 2 ^ 62) (hf : RoomForLead f.ty) :
    LiftsFault (c.peekSlot buf fixedAt i f w) (peekSlot c buf fixedAt i f w) := by
  have hoffset := (c.fixedOffset i).toNat_lt
  have hwidth := w.toNat_lt
  rw [RecordCodec.peekSlot, peekSlot, usize_ok (by omega), ok_bind, usize_ok (by omega), ok_bind]
  refine (lifts_ensure _).bind fun u hu => ?_
  rw [Slice.range_ok (by omega) (ensure_eq_ok.mp hu), ok_bind]
  exact (readFixedField_lifts hf _).bind fun v _ => lifts_ok _

theorem peekVariable_lifts {c : RecordCodec} {fixedAt i : ℕ} (hbuf : buf.length < 2 ^ 63)
    (hfixed : fixedAt < 2 ^ 61) (hvars : c.variableWidth.length < 2 ^ 59)
    (hi : ∃ x ∈ c.variableWidth, x.index = i) :
    LiftsFault (c.peekVariable buf fixedAt i) (peekVariable c buf fixedAt i) := by
  have hregion := c.fixedRegionLen.toNat_lt
  obtain ⟨x, hx, hxi⟩ := hi
  have hk : c.variableWidth.findIdx (·.index = i) < c.variableWidth.length :=
    List.findIdx_lt_length_of_exists ⟨x, hx, decide_eq_true hxi⟩
  have hfound : c.variableWidth.findIdx? (·.index = i) =
      some (c.variableWidth.findIdx (·.index = i)) :=
    List.findIdx?_eq_some_iff_findIdx_eq.mpr ⟨hk, rfl⟩
  rw [RecordCodec.peekVariable, peekVariable, hfound]
  dsimp only
  rw [usize_ok (by omega), ok_bind, usize_ok (by omega), ok_bind, usize_ok (by omega), ok_bind,
    usize_ok (by omega), ok_bind]
  refine (lifts_ensure _).bind fun u hu => ?_
  have hroom := ensure_eq_ok.mp hu
  rw [offsetAt_eq hbuf (by omega), ok_bind, offsetAt_eq hbuf (by omega), ok_bind]
  refine (lifts_ensure _).bind fun u hu => ?_
  obtain ⟨hle, hin⟩ := ensure_eq_ok.mp hu
  rw [Slice.range_ok hle hin, ok_bind]
  exact (readTlvValue_lifts _).bind_part fun r _ => lifts_ok _

theorem varFields_found {i j : ℕ} {fields : List FieldDef} {f : FieldDef}
    (hf : fields[j]? = some f) (hw : f.ty.fixedWidth = none) :
    ∃ x ∈ varFields i fields, x.index = i + j := by
  induction fields generalizing i j with
  | nil => cases hf
  | cons g rest ih =>
    rw [varFields]
    cases j with
    | zero =>
      cases hf
      rw [hw]
      exact ⟨_, List.mem_cons_self, rfl⟩
    | succ j =>
      obtain ⟨x, hx, hxi⟩ := ih (i := i + 1) hf
      refine ⟨x, ?_, by omega⟩
      split
      · exact hx
      · exact List.mem_cons_of_mem _ hx

theorem peekField_lifts (h : InMemory s buf) (field : String) :
    LiftsFault ((RecordCodec.new s).peekField buf field) (peekField (.new s) buf field) := by
  have hbitmap := bitmap_fits h
  rw [RecordCodec.peekField, peekField]
  refine .ite (fun _ => peekDynamic_lifts field buf) fun _ => ?_
  cases hfound : RecordCodec.position (RecordCodec.new s).schema.fields field with
  | none => exact lifts_ok none
  | some p =>
    obtain ⟨f, i⟩ := p
    have hfi : s.fields[i]? = some f := List.mk_mem_zipIdx_iff_getElem?.mp
      (List.mem_of_find?_eq_some hfound)
    dsimp only
    rw [usize_ok (by omega), ok_bind]
    refine (lifts_ensure _).bind fun u hu => ?_
    have hin := ensure_eq_ok.mp hu
    rw [Slice.range_ok (by omega) hin, ok_bind]
    refine .ite (fun _ => ?_) fun _ => lifts_ok none
    cases hw : f.ty.fixedWidth with
    | some w => exact peekSlot_lifts (by omega) (roomForLead (List.mem_of_getElem? hfi))
    | none =>
      have hx := varFields_found (i := 0) hfi hw
      rw [Nat.zero_add] at hx
      exact peekVariable_lifts h.bytes (by omega) (variables_fit h) hx

theorem peekInto_lifts (h : InMemory s buf) (fields : List String) (out : Record) :
    LiftsFault ((RecordCodec.new s).peekInto buf fields out) (peekInto (.new s) buf fields out) := by
  induction fields generalizing out with
  | nil => exact lifts_ok out
  | cons f rest ih =>
    rw [RecordCodec.peekInto, peekInto]
    refine (peekField_lifts h f).bind fun v _ => ?_
    cases v with
    | some v => exact ih (out.set f v)
    | none => exact ih out

end Checked

end Adabt.Storage
