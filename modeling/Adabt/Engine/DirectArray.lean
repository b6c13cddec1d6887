import Adabt.Indexing.Bitset
import Adabt.Storage.HeapStore
import Adabt.Storage.Peek

/-! # Directly addressed storage

Records of one width in one buffer, each at its id times the stride, with a bit
for each id that is there. Addresses are 64-bit: past the end a checked build
panics and a release build wraps. -/

set_option autoImplicit false

namespace Adabt.Engine
open Adabt.Core Adabt.Indexing Adabt.Library Adabt.Storage

/-- What slicing a buffer of this length checks. -/
def checkRange (lo hi len : ℕ) : Except Fault Unit :=
  if hi < lo then
    .error (.panicked ("slice index starts at " ++ toString lo ++ " but ends at " ++ toString hi))
  else if len < hi then
    .error (.panicked ("range end index " ++ toString hi ++ " out of range for slice of length " ++
      toString len))
  else .ok ()

def raised {α : Type} : Except Error α → Except Fault α
  | .ok a => .ok a
  | .error e => .error (.error e)

def physicalRecordSize (c : RecordCodec) : Option UInt32 :=
  if c.schema.mode ≠ .fixed then none
  else some (UInt32.ofNat headerLen + UInt32.ofNat (bitmapLen c.schema.fields.length) +
    c.fixedRegionLen)

def offsetIn (name : String) : UInt32 → List FieldDef → Option UInt32
  | _, [] => none
  | off, f :: rest =>
    if f.name = name then some off
    else match f.ty.fixedWidth with
      | some w => offsetIn name (off + w) rest
      | none => none

def fixedOffsetOf (s : Schema) (name : String) : Option UInt32 :=
  if s.mode ≠ .fixed then none else offsetIn name 0 s.fields

structure DirectArray where
  codec : RecordCodec
  stride : ℕ
  bytes : Bytes
  marks : Bitset
  /-- One past the highest id ever stored. -/
  capacity : ℕ
  live : ℕ

namespace DirectArray

def new (schema : Schema) : Option DirectArray :=
  (physicalRecordSize (.new schema)).map fun stride =>
    ⟨.new schema, stride.toNat, [], .empty, 0, 0⟩

def contains (a : DirectArray) (id : RecordId) : Bool := a.marks.get id

/-- `resize` with zeroes; a vector holds no more than `isize::MAX` bytes. -/
def resized (bytes : Bytes) (needed : ℕ) : Except Fault Bytes :=
  if bytes.length < needed then
    if needed < 2 ^ 63 then .ok (bytes ++ List.replicate (needed - bytes.length) 0)
    else .error (.panicked "capacity overflow")
  else .ok bytes

def growTo (b : Build) (a : DirectArray) (id : RecordId) : Except Fault DirectArray := do
  let next ← b.word "add" (id.val + 1)
  let needed ← b.word "multiply" (next * a.stride)
  let bytes ← resized a.bytes needed
  return { a with bytes := bytes, capacity := if a.capacity < next then next else a.capacity }

/-- Where the record of an id starts and ends. -/
def address (b : Build) (a : DirectArray) (id : RecordId) : Except Fault (ℕ × ℕ) := do
  let base ← b.word "multiply" (id.val * a.stride)
  let stop ← b.word "add" (base + a.stride)
  return (base, stop)

def putEncoded (b : Build) (a : DirectArray) (id : RecordId) (encoded : Bytes) :
    Except Fault DirectArray := do
  if encoded.length ≠ a.stride then
    .error (.error (.corruption ("direct array stride is " ++ toString a.stride ++
      " but record encoded to " ++ toString encoded.length)))
  else
    let a ← a.growTo b id
    let (base, stop) ← a.address b id
    checkRange base stop a.bytes.length
    return { a with
      bytes := a.bytes.take base ++ (encoded ++ a.bytes.drop stop)
      live := if a.contains id then a.live else a.live + 1
      marks := a.marks.set id }

def put (b : Build) (a : DirectArray) (id : RecordId) (rec : Record) : Except Fault DirectArray := do
  let encoded ← raised (a.codec.encode rec)
  a.putEncoded b id encoded

def remove (a : DirectArray) (id : RecordId) : DirectArray :=
  if a.contains id then { a with live := a.live - 1, marks := a.marks.clear id } else a

def get (b : Build) (a : DirectArray) (id : RecordId) : Except Fault (Option Record) := do
  if ¬a.contains id then return none
  else
    let (base, stop) ← a.address b id
    if a.bytes.length < stop then return none
    else
      checkRange base stop a.bytes.length
      let rec ← raised (a.codec.decode (RecordCodec.slice a.bytes base stop))
      return some rec

/-- The slot of a present record, if its bit says that the field is there. -/
def slotAt (b : Build) (a : DirectArray) (id : RecordId) (f : FieldDef) (index : ℕ)
    (offset width : UInt32) : Except Fault (Option OrdValue) := do
  let bmLen := bitmapLen a.codec.schema.fields.length
  let base ← b.word "multiply" (id.val * a.stride)
  let start ← b.word "add" (base + headerLen + bmLen + offset.toNat)
  let stop ← b.word "add" (start + width.toNat)
  if a.bytes.length < stop then return none
  else
    let head ← b.word "add" (base + headerLen)
    let tail ← b.word "add" (base + headerLen + bmLen)
    checkRange head tail a.bytes.length
    if bitGet (RecordCodec.slice a.bytes head tail) index then
      checkRange start stop a.bytes.length
      let v ← raised (readFixedField f.ty (RecordCodec.slice a.bytes start stop))
      return some v
    else return none

/-- One field, without decoding the rest of the record. -/
def fieldAt (b : Build) (a : DirectArray) (id : RecordId) (field : String) :
    Except Fault (Option OrdValue) :=
  if ¬a.contains id then .ok none
  else match RecordCodec.position a.codec.schema.fields field with
    | none => .ok none
    | some (f, index) => match fixedOffsetOf a.codec.schema field, f.ty.fixedWidth with
      | some offset, some width => a.slotAt b id f index offset width
      | _, _ => .ok none

end DirectArray

/-! ## One record of the buffer -/

theorem checkRange_ok {lo hi len : ℕ} (h : lo ≤ hi) (h' : hi ≤ len) : checkRange lo hi len = .ok () := by
  rw [checkRange, if_neg (Nat.not_lt.mpr h), if_neg (Nat.not_lt.mpr h')]

theorem offsetIn_append {name : String} {pre post : List FieldDef} {f : FieldDef}
    (hname : f.name = name) (hnot : ∀ g ∈ pre, g.name ≠ name)
    (hwidth : ∀ g ∈ pre, g.ty.fixedWidth ≠ none) (off : UInt32) :
    offsetIn name off (pre ++ f :: post) = some (regionLen off pre) := by
  induction pre generalizing off with
  | nil => exact if_pos hname
  | cons g pre ih =>
    obtain ⟨w, hw⟩ := Option.ne_none_iff_exists'.mp (hwidth g List.mem_cons_self)
    rw [List.cons_append, offsetIn, if_neg (hnot g List.mem_cons_self), hw]
    change offsetIn name (off + w) (pre ++ f :: post) = _
    rw [ih (fun c hc => hnot c (List.mem_cons_of_mem _ hc))
      (fun c hc => hwidth c (List.mem_cons_of_mem _ hc)), regionLen, hw]
    rfl

/-- The width of every record of a fixed schema. -/
def strideOf (s : Schema) : ℕ := headerLen + bitmapLen s.fields.length + fixedWidths s.fields

section Fixed

variable {s : Schema} {rec : Record} (hfixed : s.mode = .fixed) (hstride : strideOf s < 2 ^ 32)
include hfixed

theorem fits_fixed (hstride : strideOf s < 2 ^ 32) : Storage.Fits s rec := by
  have hsize : rowSize s rec = strideOf s := by rw [rowSize, hfixed, strideOf]
  rw [Storage.Fits, if_neg (by simp [hfixed]), hsize]
  exact hstride

theorem width_ne_none {f : FieldDef} (hf : f ∈ s.fields) : f.ty.fixedWidth ≠ none :=
  (s.fieldsValid.2 f hf).width hfixed

theorem nested_fixed (hok : Writable s rec) : rec.NestedAtMost maxDepth := by
  refine (nestedAtMost_iff hok).mpr ⟨fun f hf hvar => ?_, fun e he => ?_⟩
  · have hwidth := width_ne_none hfixed hf
    rw [isVariable, Option.isNone_iff_eq_none] at hvar
    exact absurd hvar hwidth
  · simp [extras, hfixed, SchemaMode.allowsExtraFields] at he

/-- Encoding fills one stride, and decoding reads the record back. -/
theorem encode_fixed (hok : Writable s rec) : ∃ row, (RecordCodec.new s).encode rec = .ok row ∧
    row.length = strideOf s := by
  obtain ⟨region, -, hlen, henc⟩ := encodeWithHeader_row s rec .new (by simp [hfixed]) hok.slots
  refine ⟨_, henc, ?_⟩
  rw [row, rowTail, if_pos hfixed, strideOf]
  simp only [List.length_append, writeHeader_length, presenceBits_length, hlen, List.length_nil]
  omega

include hstride

theorem decode_fixed (hok : Writable s rec) {row : Bytes}
    (henc : (RecordCodec.new s).encode rec = .ok row) :
    (RecordCodec.new s).decode row = .ok (readAs s rec) := by
  obtain ⟨row', henc', hdec⟩ := encode_decode hok (fits_fixed hfixed hstride)
  obtain rfl := Except.ok.inj (henc.symm.trans henc')
  rw [hdec, if_pos (nested_fixed hfixed hok)]

theorem peekField_fixed (hok : Writable s rec) {row : Bytes}
    (henc : (RecordCodec.new s).encode rec = .ok row) (name : String) :
    (RecordCodec.new s).peekField row name = .ok ((readAs s rec).get name) := by
  have hd : s.mode ≠ .dynamic := by simp [hfixed]
  rw [peekField_eq hok (fits_fixed hfixed hstride) henc, seen, if_neg hd, peeked,
    get_readAs rec hd]
  cases hf : s.field name with
  | none => simp [hfixed, SchemaMode.allowsExtraFields]
  | some f =>
    have hmem : f ∈ s.fields := List.mem_of_find?_eq_some hf
    cases hv : present rec f with
    | none => simp [hv]
    | some v =>
      have hsome : f.ty.fixedWidth.isSome :=
        Option.isSome_iff_ne_none.mpr (width_ne_none hfixed hmem)
      have hready := (hok.slots f hmem).2 v hv hsome
      have hflat : v.1.nesting ≤ maxDepth := by
        rw [nesting_of_accepts hready.accepts hsome]
        exact Nat.zero_le _
      simp [hv, hflat]

theorem stride_new : (physicalRecordSize (.new s)).map (·.toNat) = some (strideOf s) := by
  have hmode : ¬(RecordCodec.new s).schema.mode ≠ .fixed := not_not.mpr hfixed
  have hregion := regionLen_toNat 0 s.fields
  rw [strideOf, headerLen] at hstride
  rw [physicalRecordSize, if_neg hmode, Option.map_some, strideOf, headerLen]
  change some ((UInt32.ofNat 10 + UInt32.ofNat (bitmapLen s.fields.length) +
    regionLen 0 s.fields).toNat) = _
  rw [UInt32.toNat_zero, Nat.zero_add] at hregion
  have hmap : (UInt32.ofNat (bitmapLen s.fields.length)).toNat = bitmapLen s.fields.length :=
    UInt32.toNat_ofNat_of_lt' (by change _ < 2 ^ 32; omega)
  rw [UInt32.toNat_add, UInt32.toNat_add, hmap, hregion (by omega)]
  change some (((10 + _) % 2 ^ 32 + _) % 2 ^ 32) = _
  congr 1
  omega

end Fixed

theorem slice_slice (buf : Bytes) {base n lo hi : ℕ} (h : hi ≤ n) :
    RecordCodec.slice (RecordCodec.slice buf base (base + n)) lo hi =
      RecordCodec.slice buf (base + lo) (base + hi) := by
  unfold RecordCodec.slice
  rw [List.drop_take, List.drop_drop, List.take_take]
  congr 1
  omega

/-! ## What the array mirrors -/

/-- The buffer holds the encoding of every record that was put and not removed. -/
structure DirectArray.Mirrors (s : Schema) (a : DirectArray) (m : RecordId → Option Record) :
    Prop where
  codec : a.codec = .new s
  stride : a.stride = strideOf s
  marks : ∀ id, a.contains id = (m id).isSome
  room : a.bytes.length < 2 ^ 63
  rows : ∀ id rec, m id = some rec → Writable s rec ∧
    (id.val + 1) * strideOf s ≤ a.bytes.length ∧
    (RecordCodec.new s).encode rec =
      .ok (RecordCodec.slice a.bytes (id.val * strideOf s) (id.val * strideOf s + strideOf s))

theorem slice_append_left {buf rest : Bytes} {lo hi : ℕ} (h : hi ≤ buf.length) :
    RecordCodec.slice (buf ++ rest) lo hi = RecordCodec.slice buf lo hi := by
  unfold RecordCodec.slice
  rw [List.drop_append, List.take_append_of_le_length]
  rw [List.length_drop]
  omega

/-- A record written over another leaves those before it. -/
theorem slice_splice_before {buf new rest : Bytes} {base lo hi : ℕ} (h : hi ≤ base)
    (hb : base ≤ buf.length) :
    RecordCodec.slice (buf.take base ++ (new ++ rest)) lo hi = RecordCodec.slice buf lo hi := by
  rw [slice_append_left (by rw [List.length_take]; omega)]
  unfold RecordCodec.slice
  rw [List.drop_take, List.take_take]
  congr 1
  omega

/-- A record written over another leaves those behind it. -/
theorem slice_splice_after {buf new : Bytes} {n base lo : ℕ} (hi : ℕ) (hn : new.length = n)
    (h : base + n ≤ lo) (hb : base ≤ buf.length) :
    RecordCodec.slice (buf.take base ++ (new ++ buf.drop (base + n))) lo hi =
      RecordCodec.slice buf lo hi := by
  have hhead : (buf.take base ++ new).length = base + n := by
    rw [List.length_append, List.length_take, min_eq_left hb, hn]
  unfold RecordCodec.slice
  rw [← List.append_assoc, List.drop_append, List.drop_eq_nil_of_le (by omega), List.nil_append,
    List.drop_drop, hhead]
  congr 2
  omega

namespace DirectArray

variable {s : Schema} {a : DirectArray} {m : RecordId → Option Record} {id : RecordId}
  {rec : Record}

theorem resized_ok {bytes : Bytes} {needed : ℕ} (h : needed < 2 ^ 63) (hb : bytes.length < 2 ^ 63) :
    ∃ rest, resized bytes needed = .ok (bytes ++ rest) ∧ needed ≤ (bytes ++ rest).length ∧
      (bytes ++ rest).length < 2 ^ 63 := by
  rw [resized]
  split_ifs with hlt
  · refine ⟨_, rfl, ?_⟩
    rw [List.length_append, List.length_replicate]
    omega
  · refine ⟨[], by rw [List.append_nil], ?_⟩
    rw [List.append_nil]
    omega

/-- An address below 2^63 is what it should be, in either build. -/
theorem address_ok (b : Build) (hstride : a.stride = strideOf s)
    (h : (id.val + 1) * strideOf s < 2 ^ 63) :
    a.address b id = .ok (id.val * strideOf s, id.val * strideOf s + strideOf s) := by
  rw [Nat.succ_mul] at h
  rw [address, hstride, b.word_ok _ (by omega)]
  simp only [ok_bind]
  rw [b.word_ok _ (by omega)]
  rfl

/-- Growing the buffer moves nothing and makes room for the id. -/
theorem Mirrors.growTo (h : a.Mirrors s m) (b : Build)
    (haddr : (id.val + 1) * strideOf s < 2 ^ 63) :
    ∃ g, a.growTo b id = .ok g ∧ g.Mirrors s m ∧
      (id.val + 1) * strideOf s ≤ g.bytes.length := by
  obtain ⟨rest, hgrow, hneeded, hroom⟩ := resized_ok haddr h.room
  have hpos : 1 ≤ strideOf s := by rw [strideOf, headerLen]; omega
  have hle : id.val + 1 ≤ (id.val + 1) * strideOf s := Nat.le_mul_of_pos_right _ hpos
  refine ⟨{ a with
      bytes := a.bytes ++ rest
      capacity := if a.capacity < id.val + 1 then id.val + 1 else a.capacity }, ?_,
    ⟨h.codec, h.stride, h.marks, hroom, fun j rec hj => ?_⟩, hneeded⟩
  · rw [DirectArray.growTo, b.word_ok _ (by omega)]
    simp only [ok_bind]
    rw [h.stride, b.word_ok _ (by omega)]
    simp only [ok_bind]
    rw [hgrow]
    rfl
  · obtain ⟨hok, hfit, hrow⟩ := h.rows j rec hj
    refine ⟨hok, ?_, ?_⟩
    · rw [List.length_append]
      omega
    · rw [slice_append_left (by rwa [Nat.succ_mul] at hfit)]
      exact hrow

/-- The record of one id written into its place: every other id keeps its own. -/
theorem Mirrors.splice (h : a.Mirrors s m) (hok : Writable s rec) {row : Bytes}
    (henc : (RecordCodec.new s).encode rec = .ok row) (hlen : row.length = strideOf s)
    (hfit : (id.val + 1) * strideOf s ≤ a.bytes.length) (live : ℕ) :
    ({ a with
      bytes := a.bytes.take (id.val * strideOf s) ++
        (row ++ a.bytes.drop (id.val * strideOf s + strideOf s))
      live := live
      marks := a.marks.set id } : DirectArray).Mirrors s (Function.update m id (some rec)) := by
  rw [Nat.succ_mul] at hfit
  have hbuf : (a.bytes.take (id.val * strideOf s) ++
      (row ++ a.bytes.drop (id.val * strideOf s + strideOf s))).length = a.bytes.length := by
    simp only [List.length_append, List.length_take, List.length_drop, hlen]
    omega
  refine ⟨h.codec, h.stride, fun j => ?_, hbuf ▸ h.room, fun j rec' hj => ?_⟩
  · change (a.marks.set id).get j = _
    rw [Bitset.get_set]
    by_cases hjid : j = id
    · simp [hjid]
    · have hmark : a.marks.get j = (m j).isSome := h.marks j
      simp [hjid, hmark]
  · dsimp only
    rw [hbuf]
    by_cases hjid : j = id
    · subst hjid
      rw [Function.update_self] at hj
      obtain rfl := Option.some.inj hj
      have hhead : (a.bytes.take (j.val * strideOf s)).length = j.val * strideOf s := by
        rw [List.length_take]
        omega
      have hmid := slice_middle _ row (a.bytes.drop (j.val * strideOf s + strideOf s)) hhead
      rw [hlen] at hmid
      exact ⟨hok, by rw [Nat.succ_mul]; exact hfit, by rw [henc, hmid]⟩
    · rw [Function.update_of_ne hjid] at hj
      obtain ⟨hok', hfit', hrow⟩ := h.rows j rec' hj
      refine ⟨hok', hfit', ?_⟩
      -- two ids stand at least a stride apart
      rcases Nat.lt_or_gt_of_ne (fun hv => hjid (Fin.ext hv)) with hlt | hgt
      · have hle : (j.val + 1) * strideOf s ≤ id.val * strideOf s :=
          Nat.mul_le_mul_right _ hlt
        rw [Nat.succ_mul] at hle
        rw [slice_splice_before hle (by omega)]
        exact hrow
      · have hle : (id.val + 1) * strideOf s ≤ j.val * strideOf s :=
          Nat.mul_le_mul_right _ hgt
        rw [Nat.succ_mul] at hle
        rw [slice_splice_after _ hlen hle (by omega)]
        exact hrow

theorem Mirrors.put (h : a.Mirrors s m) (b : Build) (hfixed : s.mode = .fixed)
    (hok : Writable s rec) (haddr : (id.val + 1) * strideOf s < 2 ^ 63) :
    ∃ a', a.put b id rec = .ok a' ∧ a'.Mirrors s (Function.update m id (some rec)) := by
  obtain ⟨row, henc, hlen⟩ := encode_fixed hfixed hok
  obtain ⟨g, hgrow, hg, hfit⟩ := h.growTo b haddr
  refine ⟨_, ?_, hg.splice hok henc hlen hfit (if g.contains id then g.live else g.live + 1)⟩
  have hcut : id.val * strideOf s + strideOf s ≤ g.bytes.length := by rwa [Nat.succ_mul] at hfit
  rw [DirectArray.put, h.codec, henc, raised, ok_bind, putEncoded,
    if_neg (not_not.mpr (hlen.trans h.stride.symm)), hgrow, ok_bind,
    address_ok b hg.stride haddr]
  simp only [ok_bind]
  rw [checkRange_ok (Nat.le_add_right _ _) hcut]
  rfl

theorem Mirrors.remove (h : a.Mirrors s m) : (a.remove id).Mirrors s (Function.update m id none) := by
  have hrows : ∀ j rec, Function.update m id none j = some rec → m j = some rec := by
    intro j rec hj
    by_cases hjid : j = id
    · rw [hjid, Function.update_self] at hj
      cases hj
    · rwa [Function.update_of_ne hjid] at hj
  unfold DirectArray.remove
  split_ifs with hin
  · refine ⟨h.codec, h.stride, fun j => ?_, h.room, fun j rec hj => h.rows j rec (hrows j rec hj)⟩
    change (a.marks.clear id).get j = _
    have hmark : a.marks.get j = (m j).isSome := h.marks j
    rw [Bitset.get_clear, hmark]
    by_cases hjid : j = id
    · simp [hjid]
    · simp [hjid]
  · refine ⟨h.codec, h.stride, fun j => ?_, h.room, fun j rec hj => h.rows j rec (hrows j rec hj)⟩
    by_cases hjid : j = id
    · rw [hjid, Function.update_self]
      simpa using hin
    · rw [Function.update_of_ne hjid]
      exact h.marks j

/-! ## What the array answers -/

/-- Nothing is answered for an id that is not there. -/
theorem Mirrors.absent (h : a.Mirrors s m) (b : Build) (hid : m id = none) :
    a.contains id = false ∧ a.get b id = .ok none ∧ ∀ f, a.fieldAt b id f = .ok none := by
  have hout : a.contains id = false := by rw [h.marks, hid]; rfl
  have hnot : ¬a.contains id = true := by rw [hout]; exact Bool.false_ne_true
  refine ⟨hout, ?_, fun f => ?_⟩
  · rw [DirectArray.get, if_pos hnot]
    rfl
  · rw [fieldAt, if_pos hnot]

theorem Mirrors.get (h : a.Mirrors s m) (b : Build) (hfixed : s.mode = .fixed)
    (hstride : strideOf s < 2 ^ 32) (hid : m id = some rec) :
    a.get b id = .ok (some (readAs s rec)) := by
  obtain ⟨hok, hfit, hrow⟩ := h.rows id rec hid
  have hroom := h.room
  have hin : ¬¬a.contains id = true := not_not.mpr (by rw [h.marks, hid]; rfl)
  have hcut := hfit
  rw [Nat.succ_mul] at hcut
  rw [DirectArray.get, if_neg hin, address_ok b h.stride (by omega)]
  simp only [ok_bind]
  rw [if_neg (Nat.not_lt.mpr hcut), checkRange_ok (Nat.le_add_right _ _) hcut, ok_bind, h.codec,
    decode_fixed hfixed hstride hok hrow]
  rfl

/-- Addresses within a record do not wrap: a slot is read where its row has it. -/
theorem slotAt_eq (b : Build) (f : FieldDef) (index : ℕ) {offset w : UInt32} {bytes : Bytes}
    (hbytes : a.bytes = bytes) (hcodec : a.codec = .new s) (hstride : a.stride = strideOf s)
    (hfit : id.val * strideOf s + strideOf s ≤ bytes.length) (hroom : bytes.length < 2 ^ 63)
    (hin : headerLen + bitmapLen s.fields.length + offset.toNat + w.toNat ≤ strideOf s) :
    a.slotAt b id f index offset w =
      raised (if bitGet (RecordCodec.slice (RecordCodec.slice bytes (id.val * strideOf s)
          (id.val * strideOf s + strideOf s)) headerLen
          (headerLen + bitmapLen s.fields.length)) index then do
        let v ← readFixedField f.ty (RecordCodec.slice (RecordCodec.slice bytes
          (id.val * strideOf s) (id.val * strideOf s + strideOf s))
          (headerLen + bitmapLen s.fields.length + offset.toNat)
          (headerLen + bitmapLen s.fields.length + offset.toNat + w.toNat))
        return some v
      else .ok none) := by
  have hschema : (RecordCodec.new s).schema = s := rfl
  rw [slotAt, hcodec, hstride, hbytes, hschema]
  rw [slice_slice _ (by omega), slice_slice _ hin, b.word_ok _ (by omega)]
  simp only [ok_bind]
  rw [b.word_ok _ (by omega), ok_bind, b.word_ok _ (by omega), ok_bind,
    if_neg (Nat.not_lt.mpr (by omega)), b.word_ok _ (by omega), ok_bind, b.word_ok _ (by omega),
    ok_bind, checkRange_ok (by omega) (by omega), ok_bind]
  simp only [← Nat.add_assoc]
  split_ifs
  · rw [checkRange_ok (by omega) (by omega), ok_bind]
    cases readFixedField f.ty (RecordCodec.slice bytes
      (id.val * strideOf s + headerLen + bitmapLen s.fields.length + offset.toNat)
      (id.val * strideOf s + headerLen + bitmapLen s.fields.length + offset.toNat + w.toNat)) <;> rfl
  · rfl

/-- A field read at its address is the field peeked at in its row. -/
theorem Mirrors.fieldAt_eq (h : a.Mirrors s m) (b : Build) (hfixed : s.mode = .fixed)
    (hstride : strideOf s < 2 ^ 32) (hid : m id = some rec) (name : String) :
    a.fieldAt b id name = raised ((RecordCodec.new s).peekField
      (RecordCodec.slice a.bytes (id.val * strideOf s) (id.val * strideOf s + strideOf s)) name) := by
  obtain ⟨hok, hfit, hrow⟩ := h.rows id rec hid
  have hin : ¬¬a.contains id = true := not_not.mpr (by rw [h.marks, hid]; rfl)
  rw [Nat.succ_mul] at hfit
  have hschema : (RecordCodec.new s).schema = s := rfl
  have hd : ¬s.mode = .dynamic := by simp [hfixed]
  have hlen : (RecordCodec.slice a.bytes (id.val * strideOf s)
      (id.val * strideOf s + strideOf s)).length = strideOf s := by
    rw [RecordCodec.slice, List.length_take, List.length_drop]
    omega
  rw [fieldAt, if_neg hin, RecordCodec.peekField, h.codec, hschema, if_neg hd]
  cases hf : s.field name with
  | none =>
    rw [position_none hf]
    rfl
  | some f =>
    obtain ⟨hname, pre, post, hfields, hnot⟩ := field_split hf
    have hpos : RecordCodec.position s.fields name = some (f, pre.length) := by
      rw [hfields, position_append hname hnot]
    have hmem : f ∈ s.fields := by simp [hfields]
    obtain ⟨w, hw⟩ := Option.ne_none_iff_exists'.mp (width_ne_none hfixed hmem)
    have hpre : ∀ g ∈ pre, g.ty.fixedWidth ≠ none := fun g hg =>
      width_ne_none hfixed (by simp [hfields, hg])
    have hoff : fixedOffsetOf s name = some (regionLen 0 pre) := by
      rw [fixedOffsetOf, if_neg (not_not.mpr hfixed), hfields, offsetIn_append hname hnot hpre]
    have hsum : fixedWidths s.fields = fixedWidths pre + (w.toNat + fixedWidths post) := by
      rw [hfields, fixedWidths_append, fixedWidths, hw]
      rfl
    have hlay : strideOf s = headerLen + bitmapLen s.fields.length + fixedWidths s.fields := rfl
    have hregion : (regionLen 0 pre).toNat = fixedWidths pre := by
      have hwide := regionLen_toNat 0 pre
      rw [UInt32.toNat_zero, Nat.zero_add] at hwide
      exact hwide (by omega)
    have hpeek := fixedOffset_eq hfields hw (by omega)
    have hstop : headerLen + bitmapLen s.fields.length + fixedWidths pre + w.toNat ≤
        strideOf s := by omega
    have hhead : headerLen + bitmapLen s.fields.length ≤ (RecordCodec.slice a.bytes
        (id.val * strideOf s) (id.val * strideOf s + strideOf s)).length := by
      rw [hlen]
      omega
    have hslot : headerLen + bitmapLen s.fields.length + fixedWidths pre + w.toNat ≤
        (RecordCodec.slice a.bytes (id.val * strideOf s)
          (id.val * strideOf s + strideOf s)).length := by
      rw [hlen]
      exact hstop
    simp only [hpos, hoff, hw]
    rw [slotAt_eq b f pre.length rfl h.codec h.stride hfit h.room (hregion ▸ hstop), hregion]
    simp only [RecordCodec.peekSlot, hpeek, ensure, if_pos hhead, if_pos hslot, ok_bind]
    rfl

/-- What the array answers for an id whose last call was this put, or none or a
removal. A field that was put as null is stored as absence. -/
def Answers (a : DirectArray) (b : Build) (id : RecordId) : Option Record → Prop
  | none => a.contains id = false ∧ a.get b id = .ok none ∧ ∀ f, a.fieldAt b id f = .ok none
  | some rec => a.contains id = true ∧ ∃ r, a.get b id = .ok (some r) ∧
      r.Eqv (normalizeForStorage rec) ∧ ∀ f, a.fieldAt b id f = .ok (r.get f)

end DirectArray

/-- What is read back from a fixed row is the record that was written. -/
theorem readAs_fixed {s : Schema} {rec : Record} {u : Unit} (hfixed : s.mode = .fixed)
    (hok : s.validateRecord rec = .ok u) (hwide : NoWideUnsigned s rec) :
    (readAs s rec).Eqv (normalizeForStorage rec) := by
  have hd : s.mode ≠ .dynamic := by simp [hfixed]
  have hextra : s.mode.allowsExtraFields = false := by simp [hfixed, SchemaMode.allowsExtraFields]
  rw [Record.eqv_iff]
  intro name
  rw [get_readAs rec hd, normalizeForStorage, OrdMap.get_filter]
  cases hf : s.field name with
  | none =>
    have habsent : rec.get name = none := by
      rw [Option.eq_none_iff_forall_not_mem]
      intro v hv
      have hknown := (validateRecord_ok hok).1 hextra name v hv
      rw [hf] at hknown
      cases hknown
    simp [hextra, habsent]
  | some f =>
    have hmem : f ∈ s.fields := List.mem_of_find?_eq_some hf
    have hname : f.name = name := (field_split hf).1
    have hslot : (rec.get name).filter (fun v => !v.1.isNull) = present rec f := by
      rw [present, hname]
    simp only [hslot]
    cases hv : present rec f with
    | none => exact .none
    | some v =>
      have hready := slotReady_of_checkField ((validateRecord_ok hok).2 f hmem) hv
      have hget : rec.get f.name = some v := (Option.filter_eq_some_iff.mp hv).1
      have hnarrow := hwide.resolve_left hd f hmem v hget
      exact .some ((stored_eqv_iff hready.accepts hready.present).mpr hnarrow)

namespace DirectArray

variable {s : Schema} {a : DirectArray} {m : RecordId → Option Record} {id : RecordId}
  {rec : Record}

theorem Mirrors.answers (h : a.Mirrors s m) (b : Build) (hfixed : s.mode = .fixed)
    (hstride : strideOf s < 2 ^ 32) (hok : s.validateRecord rec = .ok ())
    (hwide : NoWideUnsigned s rec) (hid : m id = some rec) : a.Answers b id (some rec) := by
  obtain ⟨hwritable, -, hrow⟩ := h.rows id rec hid
  refine ⟨by rw [h.marks, hid]; rfl, readAs s rec, h.get b hfixed hstride hid,
    readAs_fixed hfixed hok hwide, fun f => ?_⟩
  rw [h.fieldAt_eq b hfixed hstride hid, peekField_fixed hfixed hstride hwritable hrow]
  rfl

/-! ## Every run of puts and removals -/

end DirectArray

inductive ArrayCall where
  | put (id : RecordId) (rec : Record)
  | remove (id : RecordId)

namespace ArrayCall

/-- The record that stands for each id afterwards. -/
def kept (m : RecordId → Option Record) : ArrayCall → RecordId → Option Record
  | .put id rec => Function.update m id (some rec)
  | .remove id => Function.update m id none

/-- The record put last for each id, unless the id was removed since. -/
def lastPut (calls : List ArrayCall) : RecordId → Option Record := calls.foldl kept fun _ => none

/-- A put's record is one the schema accepts. -/
def Accepted (s : Schema) : ArrayCall → Prop
  | .put _ rec => s.validateRecord rec = .ok ()
  | .remove _ => True

/-- The buffer up to the record's end is no longer than a buffer can be, and its
slots hold its values. -/
def Addressed (s : Schema) : ArrayCall → Prop
  | .put id rec => (id.val + 1) * strideOf s < 2 ^ 63 ∧ NoWideUnsigned s rec
  | .remove _ => True

end ArrayCall

namespace DirectArray

variable {s : Schema} {a : DirectArray} {m : RecordId → Option Record}

def perform (b : Build) (a : DirectArray) : ArrayCall → Except Fault DirectArray
  | .put id rec => a.put b id rec
  | .remove id => .ok (a.remove id)

def run (b : Build) (a : DirectArray) : List ArrayCall → Except Fault DirectArray
  | [] => .ok a
  | c :: cs => do
    let a ← a.perform b c
    a.run b cs

theorem Mirrors.perform (h : a.Mirrors s m) (b : Build) (hfixed : s.mode = .fixed) {c : ArrayCall}
    (hok : c.Accepted s) (haddr : c.Addressed s) :
    ∃ a', a.perform b c = .ok a' ∧ a'.Mirrors s (c.kept m) := by
  cases c with
  | put id rec => exact h.put b hfixed (writable_of_valid hok) haddr.1
  | remove id => exact ⟨_, rfl, h.remove⟩

theorem Mirrors.run (h : a.Mirrors s m) (b : Build) (hfixed : s.mode = .fixed)
    (calls : List ArrayCall) (hok : ∀ c ∈ calls, c.Accepted s) (haddr : ∀ c ∈ calls, c.Addressed s) :
    ∃ a', a.run b calls = .ok a' ∧ a'.Mirrors s (calls.foldl ArrayCall.kept m) := by
  induction calls generalizing a m with
  | nil => exact ⟨a, rfl, h⟩
  | cons c cs ih =>
    obtain ⟨a₁, hstep, h₁⟩ := h.perform b hfixed (hok c List.mem_cons_self)
      (haddr c List.mem_cons_self)
    obtain ⟨a₂, hrun, h₂⟩ := ih h₁ (fun d hd => hok d (List.mem_cons_of_mem _ hd))
      (fun d hd => haddr d (List.mem_cons_of_mem _ hd))
    refine ⟨a₂, ?_, h₂⟩
    rw [DirectArray.run, hstep]
    exact hrun

/-- What stands for an id was put for it, or stood for it from the start. -/
theorem mem_of_kept {calls : List ArrayCall} {id : RecordId} {rec : Record}
    (h : calls.foldl ArrayCall.kept m id = some rec) : .put id rec ∈ calls ∨ m id = some rec := by
  induction calls generalizing m with
  | nil => exact .inr h
  | cons c cs ih =>
    rcases ih h with hmem | hstart
    · exact .inl (List.mem_cons_of_mem _ hmem)
    · cases c with
      | put j r =>
        by_cases hj : id = j
        · subst hj
          rw [ArrayCall.kept, Function.update_self] at hstart
          exact .inl (Option.some.inj hstart ▸ List.mem_cons_self)
        · exact .inr (by rwa [ArrayCall.kept, Function.update_of_ne hj] at hstart)
      | remove j =>
        by_cases hj : id = j
        · subst hj
          rw [ArrayCall.kept, Function.update_self] at hstart
          cases hstart
        · exact .inr (by rwa [ArrayCall.kept, Function.update_of_ne hj] at hstart)

theorem mirrors_new (hfixed : s.mode = .fixed) (hstride : strideOf s < 2 ^ 32) :
    ∃ a, new s = some a ∧ a.Mirrors s fun _ => none := by
  obtain ⟨w, hw, hval⟩ := Option.map_eq_some_iff.mp (stride_new hfixed hstride)
  refine ⟨⟨.new s, w.toNat, [], .empty, 0, 0⟩, ?_, ⟨rfl, hval, fun _ => rfl, by simp, ?_⟩⟩
  · rw [new, hw]
    rfl
  · intro id rec hrec
    cases hrec

/-- In every run of puts whose records end below 2^63, and removals, the array
answers for each id with the record put last, in either build. -/
theorem direct_array_agrees (b : Build) (s : Schema) (hfixed : s.mode = .fixed)
    (hstride : strideOf s < 2 ^ 32) (calls : List ArrayCall) (hok : ∀ c ∈ calls, c.Accepted s)
    (haddr : ∀ c ∈ calls, c.Addressed s) : ∃ a₀ a, new s = some a₀ ∧ a₀.run b calls = .ok a ∧
      ∀ id, a.Answers b id (ArrayCall.lastPut calls id) := by
  obtain ⟨a₀, hnew, h₀⟩ := mirrors_new hfixed hstride
  obtain ⟨a, hrun, h⟩ := h₀.run b hfixed calls hok haddr
  refine ⟨a₀, a, hnew, hrun, fun id => ?_⟩
  cases hlast : ArrayCall.lastPut calls id with
  | none => exact h.absent b hlast
  | some rec =>
    have hput : .put id rec ∈ calls := (mem_of_kept hlast).resolve_right (fun hno => by cases hno)
    exact h.answers b hfixed hstride (hok _ hput) (haddr _ hput).2 hlast

def counters : Schema := ⟨.fixed, [⟨"n", .u64, true⟩, ⟨"open", .bool, true⟩], rfl⟩

def counter (n : UInt64) : Record := (∅ : Record).set "n" ⟨.u64 n, trivial⟩

def moved : List ArrayCall := [.put 3 (counter 7), .put 0 (counter 8), .remove 3, .put 2 (counter 9)]

theorem moved_agree : ∃ a₀ a, new counters = some a₀ ∧ a₀.run .checked moved = .ok a ∧
    ∀ id, a.Answers .checked id (ArrayCall.lastPut moved id) := by
  refine direct_array_agrees .checked counters rfl (by decide) moved (fun c hc => ?_)
    (fun c hc => ?_)
  · simp only [moved, List.mem_cons, List.not_mem_nil, or_false] at hc
    rcases hc with rfl | rfl | rfl | rfl <;> trivial
  · simp only [moved, List.mem_cons, List.not_mem_nil, or_false] at hc
    rcases hc with rfl | rfl | rfl | rfl <;> trivial

def highestId : RecordId := ⟨2 ^ 64 - 1, by decide⟩

/-- The highest id: a checked build stops at the address, a release build at the
slice it wraps to. -/
theorem highest_id_panics : ArrayCall.Accepted counters (.put highestId (counter 7)) ∧
    (new counters).map (fun a => a.run .checked [.put highestId (counter 7)]) =
      some (.error (.panicked "attempt to add with overflow")) ∧
    (new counters).map (fun a => a.run .release [.put highestId (counter 7)]) =
      some (.error (.panicked
        "slice index starts at 18446744073709551596 but ends at 0")) :=
  ⟨rfl, rfl, rfl⟩

end DirectArray

end Adabt.Engine
