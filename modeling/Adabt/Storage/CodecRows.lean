import Adabt.Storage.Decode

/-! # Whole rows

An encoded row is its header, bitmap, fixed region and tail. A schema reads a
row written under another one whenever the two lay out the row alike and set
no bit for a field the writer did not share. -/

set_option autoImplicit false

namespace Adabt.Storage
open Adabt.Core Adabt.Library

theorem readHeader_write (h : RecordHeader) (rest : Bytes) :
    RecordHeader.read (h.write ++ rest) =
      if h.version = formatVersion then .ok h
      else .error (.corruption ("unsupported record format version " ++
        toString h.version.toNat)) := by
  have hlen : ¬ (h.write ++ rest).length < headerLen := by
    simp only [RecordHeader.write, List.cons_append, List.length_cons, List.length_append,
      leBytes_length, headerLen]
    omega
  have htxn : h.txn.toNat < 256 ^ 8 := h.txn.toNat_lt
  have htake : (((h.write ++ rest).drop 2).take 8) = leBytes 8 h.txn.toNat := by
    simp only [RecordHeader.write, List.cons_append, List.drop_succ_cons, List.drop_zero]
    exact List.take_left' (leBytes_length 8 _)
  rw [RecordHeader.read, if_neg hlen, htake, ofLeBytes_leBytes htxn]
  simp only [RecordHeader.write, List.cons_append, List.headD_cons, List.getD_cons_succ,
    List.getD_cons_zero, UInt64.ofNat_toNat]
  by_cases hv : h.version = formatVersion
  · rw [if_neg (by simpa using hv), if_pos hv]
  · rw [if_pos (by simpa using hv), if_neg hv]

@[simp] theorem writeHeader_length (h : RecordHeader) : h.write.length = headerLen := by
  simp [RecordHeader.write, headerLen]

theorem raw_injective {xs ys : List (String × OrdValue)}
    (h : (xs.map fun e => (e.1, e.2.1)) = ys.map fun e => (e.1, e.2.1)) : xs = ys := by
  refine (List.map_injective_iff.mpr ?_) h
  rintro ⟨k, u⟩ ⟨j, v⟩ hab
  obtain ⟨rfl, huv⟩ := Prod.mk.inj hab
  exact congrArg _ (Subtype.ext huv)

theorem nestingEntries_le {n : ℕ} {oes : List (String × OrdValue)}
    (hd : ∀ e ∈ oes, e.2.1.nesting ≤ n) :
    Value.nestingEntries (oes.map fun e => (e.1, e.2.1)) ≤ n + 1 := by
  induction oes with
  | nil => simp [Value.nestingEntries]
  | cons e rest ih =>
    have := hd e List.mem_cons_self
    have := ih fun a ha => hd a (List.mem_cons_of_mem _ ha)
    rw [List.map_cons, Value.nestingEntries]
    omega

/-- A counted bag of named values reads back into the record it is added to. -/
theorem readBag_writeBag (what : String) (oes : List (String × OrdValue)) (r : Record) (p : ℕ)
    (hd : ∀ e ∈ oes, e.2.1.nesting ≤ maxDepth)
    (hlen : (RecordCodec.writeBag (oes.map fun e => (e.1, e.2.1))).length < 2 ^ 64) :
    RecordCodec.readBag what r ⟨p, RecordCodec.writeBag (oes.map fun e => (e.1, e.2.1))⟩ =
      .ok (r.insertAll oes) := by
  set es := oes.map fun e => (e.1, e.2.1) with hes
  have hnest := nestingEntries_le hd
  rw [RecordCodec.writeBag, List.length_append] at hlen
  have hcount := length_le_writeEntries es
  obtain ⟨oes', hoes, hread⟩ := readEntries_writeEntries es (orderedEntries_map oes) (maxDepth + 1)
    hnest (by omega) (p + (writeLen es.length).length) [] r
  obtain rfl : oes' = oes := raw_injective hoes
  rw [List.append_nil] at hread
  rw [RecordCodec.readBag, RecordCodec.writeBag, varint_writeLen]
  have hroom : es.length ≤ (Cursor.mk (p + (writeLen es.length).length)
      (writeEntries es)).remaining := hcount
  simp only [ok_bind, toNat_ofNat_len (show es.length < 2 ^ 64 by omega), ensure, if_pos hroom,
    readTlvValue, Nat.sub_zero, hread]
  rfl

/-- The fields a record holds beyond its schema, as the overflow bag keeps them. -/
def extras (s : Schema) (rec : Record) : List (String × OrdValue) :=
  if s.mode.allowsExtraFields then rec.entries.filter fun e => (s.field e.1).isNone else []

theorem overflow_eq (s : Schema) (rec : Record) :
    (RecordCodec.new s).overflow rec = (extras s rec).map fun e => (e.1, e.2.1) := by
  rw [RecordCodec.overflow, extras]
  show (if s.mode.allowsExtraFields then _ else _) = _
  split
  · rw [rawEntries, List.filter_map]
    rfl
  · rfl

def flagged (s : Schema) (rec : Record) (h : RecordHeader) : RecordHeader :=
  if (extras s rec).isEmpty then h else { h with flags := h.flags ||| hasOverflow }

def dataAt (s : Schema) : ℕ :=
  headerLen + bitmapLen s.fields.length + fixedWidths s.fields +
    4 * ((varFields 0 s.fields).length + 1)

def bagBytes (s : Schema) (rec : Record) : Bytes :=
  if (extras s rec).isEmpty then []
  else RecordCodec.writeBag ((extras s rec).map fun e => (e.1, e.2.1))

def rowTail (s : Schema) (rec : Record) : Bytes :=
  if s.mode = .fixed then []
  else writeTable (varOffsets rec (varFields 0 s.fields) (dataAt s)) ++
    (writeVariable rec (varFields 0 s.fields) ++ bagBytes s rec)

def row (s : Schema) (rec : Record) (h : RecordHeader) (region : Bytes) : Bytes :=
  (flagged s rec h).write ++ (presenceBits rec s.fields ++ (region ++ rowTail s rec))

/-- Encoding a ready record lays out a row. -/
theorem encodeWithHeader_row (s : Schema) (rec : Record) (h : RecordHeader)
    (hm : s.mode ≠ .dynamic) (hready : RowWritable rec s.fields) : ∃ region,
    writeFixedRegion rec (fixedFields 0 0 s.fields) = .ok region ∧
      region.length = fixedWidths s.fields ∧
      (RecordCodec.new s).encodeWithHeader rec h [] = .ok (row s rec h region) := by
  obtain ⟨region, hregion, hlen⟩ := writeFixedRegion_ok rec 0 0 s.fields hready
  refine ⟨region, hregion, hlen, ?_⟩
  have hflag : (if ((extras s rec).map fun e => (e.1, e.2.1)).isEmpty then h
      else { h with flags := h.flags ||| hasOverflow }) = flagged s rec h := by
    rw [flagged, List.isEmpty_map]
  have hmode : (RecordCodec.new s).schema.mode = s.mode := rfl
  rw [RecordCodec.encodeWithHeader, if_neg (show (RecordCodec.new s).schema.mode ≠ _ from hm)]
  simp only [overflow_eq, hflag]
  show (writeFixedRegion rec (fixedFields 0 0 s.fields) >>= _) = _
  rw [hregion, ok_bind, hmode, row, rowTail]
  split
  · simp only [List.nil_append, List.append_assoc, List.append_nil]
    rfl
  · simp only [List.nil_append, List.append_assoc, List.isEmpty_map, bagBytes, dataAt,
      List.length_append, writeHeader_length, presenceBits_length, hlen, Nat.add_assoc]
    rfl

/-- The fields two schemas share, as a reader restores them from a row. -/
def restore (rec : Record) (fields : List FieldDef) : Record :=
  restoreIf isVariable rec fields (restoreIf isFixed rec fields ∅)

/-- `now` lays a row of `w` out alike up to the fields `shared`, and finds no
bit set for a field of its own beyond them. -/
structure Readable (w now : Schema) (rec : Record) (shared : List FieldDef) : Prop where
  mode : now.mode = w.mode
  declared : w.mode ≠ .dynamic
  writer : ∃ rest, w.fields = shared ++ rest ∧ (w.mode ≠ .fixed →
    (∀ f ∈ rest, f.ty.fixedWidth = none) ∧ (extras w rec ≠ [] → rest = []))
  reader : ∃ rest, now.fields = shared ++ rest ∧ (w.mode ≠ .fixed → rest = [])
  bitmap : bitmapLen now.fields.length = bitmapLen w.fields.length
  absent : ∀ j, shared.length ≤ j → j < now.fields.length →
    (w.fields[j]?).bind (present rec) = none

/-- The bounds under which the 32-bit offsets of a row are exact, and the depth
its undeclared values may have. -/
structure RowFits (w : Schema) (rec : Record) (h : RecordHeader) (shared : List FieldDef)
    (region : Bytes) : Prop where
  widths : fixedWidths shared < 2 ^ 32
  size : w.mode ≠ .fixed → (row w rec h region).length < 2 ^ 32
  depth : ∀ e ∈ extras w rec, e.2.1.nesting ≤ maxDepth

theorem fixedWidths_of_variable {fields : List FieldDef}
    (h : ∀ f ∈ fields, f.ty.fixedWidth = none) : fixedWidths fields = 0 := by
  induction fields with
  | nil => rfl
  | cons f rest ih =>
    rw [fixedWidths, h f List.mem_cons_self, ih fun g hg => h g (List.mem_cons_of_mem _ hg)]
    rfl

theorem restoreIf_none {p : FieldDef → Bool} {rec r : Record} {fields : List FieldDef}
    (h : ∀ f ∈ fields, p f = false) : restoreIf p rec fields r = r := by
  induction fields with
  | nil => rfl
  | cons f rest ih =>
    rw [restoreIf, h f List.mem_cons_self]
    exact ih fun g hg => h g (List.mem_cons_of_mem _ hg)

theorem hasOverflow_eq : hasOverflow = bitMask 1 := rfl

theorem flagged_hasOverflow {s : Schema} {rec : Record} {h : RecordHeader}
    (hh : h.flags &&& hasOverflow ≠ 0 → extras s rec ≠ []) :
    ((flagged s rec h).flags &&& hasOverflow ≠ 0) ↔ extras s rec ≠ [] := by
  rw [flagged]
  by_cases he : extras s rec = []
  · rw [he] at hh ⊢
    exact ⟨hh, fun hn => absurd rfl hn⟩
  · rw [if_neg (by simpa using he), hasOverflow_eq, and_bitMask]
    simp [he, bitMask_toBitVec]

theorem rowTail_length_le (s : Schema) (rec : Record) (region : Bytes) (h : RecordHeader)
    (hregion : region.length = fixedWidths s.fields) (hm : s.mode ≠ .fixed) :
    (row s rec h region).length =
      dataAt s + (writeVariable rec (varFields 0 s.fields)).length + (bagBytes s rec).length := by
  rw [row, rowTail, if_neg hm]
  simp only [List.length_append, writeHeader_length, presenceBits_length, hregion,
    writeTable_length, varOffsets_length, dataAt]
  omega

theorem varFields_length_le (i : ℕ) (fields : List FieldDef) :
    (varFields i fields).length ≤ fields.length := by
  induction fields generalizing i with
  | nil => simp [varFields]
  | cons f rest ih =>
    have := ih (i + 1)
    rw [varFields]
    split <;> simp <;> omega

theorem writeVariable_append (rec : Record) (xs ys : List VarField) :
    writeVariable rec (xs ++ ys) = writeVariable rec xs ++ writeVariable rec ys := by
  induction xs with
  | nil => rfl
  | cons x xs ih => simp [writeVariable, ih]

/-- The offsets a reader finds are the ones written for its fields. -/
theorem offsets_read {rec : Record} {A C : Bytes} {xs ys : List VarField} {tableAt pos : ℕ}
    (hA : A.length = tableAt) (hsize : pos + (writeVariable rec (xs ++ ys)).length < 2 ^ 32)
    {j : ℕ} (hj : j ≤ xs.length) :
    (varOffsets rec xs pos)[j]? = some (RecordCodec.offsetAt
      (A ++ (writeTable (varOffsets rec (xs ++ ys) pos) ++ C)) tableAt j) := by
  have hlt : j < (varOffsets rec (xs ++ ys) pos).length := by
    rw [varOffsets_length, List.length_append]
    omega
  have ho := List.getElem?_eq_getElem hlt
  have hle := varOffsets_le rec _ pos ho
  rw [← varOffsets_append rec xs ys pos j hj, ho, offsetAt_table A C _ hA ho (by omega)]

theorem checkOffsets_read {rec : Record} {xs : List VarField} {pos : ℕ} {offset : ℕ → ℕ}
    (h : ∀ j ≤ xs.length, (varOffsets rec xs pos)[j]? = some (offset j)) :
    RecordCodec.checkOffsets (offset 0) ((List.range' 1 xs.length).map offset) =
      .ok (pos + (writeVariable rec xs).length) := by
  have hhead : offset 0 = pos := by
    have := h 0 (Nat.zero_le _)
    rw [varOffsets_head] at this
    exact (Option.some.inj this).symm
  have htail : (List.range' 1 xs.length).map offset = (varOffsets rec xs pos).tail := by
    apply List.ext_getElem?
    intro j
    rw [List.getElem?_map, List.getElem?_tail]
    by_cases hj : j < xs.length
    · rw [List.getElem?_range' hj, h (j + 1) hj, Option.map_some, Nat.one_mul, Nat.add_comm]
    · rw [List.getElem?_eq_none (by simpa using hj), List.getElem?_eq_none (by simpa using hj)]
      rfl
  rw [hhead, htail, checkOffsets_tail]

/-- The offset table and what follows it, read under a schema with the same
fixed region and possibly fewer variable fields. -/
theorem readTail_eq {w now : Schema} {rec : Record} {h : RecordHeader} {region : Bytes}
    (r : Record) (flags : UInt8) {rest : List FieldDef} (hfields : w.fields = now.fields ++ rest)
    (hm : w.mode ≠ .fixed) (hregion : region.length = fixedWidths w.fields)
    (hsize : (row w rec h region).length < 2 ^ 32) :
    ∃ bag, (rest = [] → bag = bagBytes w rec) ∧
      (RecordCodec.new now).readTail (row w rec h region) (presenceBits rec w.fields) flags
        (headerLen + bitmapLen w.fields.length + fixedWidths w.fields) r =
          if Shallow rec now.fields then
            if flags &&& hasOverflow ≠ 0 then
              RecordCodec.readBag "overflow" (restoreIf isVariable rec now.fields r) (.new bag)
            else .ok (restoreIf isVariable rec now.fields r)
          else .error tooDeep := by
  have hlength := rowTail_length_le w rec region h hregion hm
  set xs := varFields 0 now.fields with hxs
  set ys := varFields now.fields.length rest with hys
  have hvars : varFields 0 w.fields = xs ++ ys := by
    rw [hfields, varFields_append, Nat.zero_add]
  set A := (flagged w rec h).write ++ (presenceBits rec w.fields ++ region) with hA
  have hAlen : A.length = headerLen + bitmapLen w.fields.length + fixedWidths w.fields := by
    simp only [hA, List.length_append, writeHeader_length, presenceBits_length, hregion]
    omega
  have hbuf : row w rec h region = A ++ (writeTable (varOffsets rec (xs ++ ys) (dataAt w)) ++
      (writeVariable rec (xs ++ ys) ++ bagBytes w rec)) := by
    rw [row, rowTail, if_neg hm, hvars, hA]
    simp only [List.append_assoc]
  rw [hvars] at hlength
  have hat : dataAt w = A.length + 4 * ((xs ++ ys).length + 1) := by
    rw [dataAt, hvars, hAlen]
  have hoffs : ∀ j ≤ xs.length, (varOffsets rec xs (dataAt w))[j]? =
      some (RecordCodec.offsetAt (row w rec h region) A.length j) := fun j hj => by
    rw [hbuf]
    exact offsets_read rfl (by omega) hj
  have hroom : A.length + 4 * (xs.length + 1) ≤ (row w rec h region).length := by
    have hcount : (xs ++ ys).length = xs.length + ys.length := List.length_append
    omega
  have hlast : dataAt w + (writeVariable rec xs).length ≤ (row w rec h region).length := by
    rw [hlength, writeVariable_append, List.length_append]
    omega
  have hread : RecordCodec.readVarFields (row w rec h region) (presenceBits rec w.fields) A.length 0
      (varFields 0 now.fields) r = if Shallow rec now.fields then
        .ok (restoreIf isVariable rec now.fields r) else .error tooDeep :=
    readVarFields_region (by omega) 0 0 (dataAt w) r
    (A ++ writeTable (varOffsets rec (xs ++ ys) (dataAt w)))
    (writeVariable rec ys ++ bagBytes w rec)
    (by rw [hbuf, writeVariable_append]; simp only [List.append_assoc, ← hxs])
    (by rw [List.length_append, writeTable_length, varOffsets_length, hat])
    (by intro j hj; rw [Nat.zero_add]; exact hoffs j hj)
    (by
      intro j hj
      rw [Nat.zero_add, bitGet_presenceBits, hfields, List.getElem?_append_left hj])
  rw [← hxs] at hread
  have hcodec : (RecordCodec.new now).variableWidth = xs := rfl
  refine ⟨(row w rec h region).drop (dataAt w + (writeVariable rec xs).length), ?_, ?_⟩
  · rintro rfl
    have hnil : ys = [] := rfl
    rw [hbuf, hnil, List.append_nil, ← List.append_assoc, ← List.append_assoc]
    apply List.drop_left'
    simp only [List.length_append, writeTable_length, varOffsets_length, hat, hnil,
      List.length_nil, Nat.add_zero]
  · rw [RecordCodec.readTail, hcodec, ← hAlen]
    simp only [ensure, if_pos hroom, checkOffsets_read hoffs, if_pos hlast, ok_bind, hread]
    by_cases hs : Shallow rec now.fields
    · rw [if_pos hs, if_pos hs]
      rfl
    · rw [if_neg hs, if_neg hs]
      rfl

theorem readTail_row {w now : Schema} {rec r : Record} {h : RecordHeader} {region : Bytes}
    {flags : UInt8} {rest : List FieldDef} (hfields : w.fields = now.fields ++ rest)
    (hrest : extras w rec ≠ [] → rest = []) (hm : w.mode ≠ .fixed)
    (hready : RowReady rec now.fields) (hregion : region.length = fixedWidths w.fields)
    (hsize : (row w rec h region).length < 2 ^ 32)
    (hbag : (flags &&& hasOverflow ≠ 0) ↔ extras w rec ≠ [])
    (hdepth : ∀ e ∈ extras w rec, e.2.1.nesting ≤ maxDepth) :
    (RecordCodec.new now).readTail (row w rec h region) (presenceBits rec w.fields) flags
      (headerLen + bitmapLen w.fields.length + fixedWidths w.fields) r =
        .ok ((restoreIf isVariable rec now.fields r).insertAll (extras w rec)) := by
  obtain ⟨bag, hbagBytes, heq⟩ := readTail_eq r flags hfields hm hregion hsize
  rw [heq, if_pos hready.shallow]
  by_cases he : extras w rec = []
  · rw [if_neg (by rw [hbag]; exact fun hne => hne he), he]
    rfl
  · have hempty : ¬ (extras w rec).isEmpty := by simpa using he
    have hbytes : bagBytes w rec =
        RecordCodec.writeBag ((extras w rec).map fun e => (e.1, e.2.1)) := by
      rw [bagBytes, if_neg hempty]
    have hlength := rowTail_length_le w rec region h hregion hm
    rw [if_pos (hbag.mpr he), hbagBytes (hrest he), hbytes, Cursor.new]
    exact readBag_writeBag _ _ _ _ hdepth (by rw [← hbytes]; omega)

theorem writeFixedRegion_append {rec : Record} {xs ys : List FixedField} {region : Bytes}
    (h : writeFixedRegion rec (xs ++ ys) = .ok region) : ∃ left right,
      writeFixedRegion rec xs = .ok left ∧ writeFixedRegion rec ys = .ok right ∧
        region = left ++ right := by
  induction xs generalizing region with
  | nil => exact ⟨[], region, rfl, h, rfl⟩
  | cons x xs ih =>
    rw [List.cons_append, writeFixedRegion] at h
    obtain ⟨slot, hs, h⟩ := bind_eq_ok.mp h
    obtain ⟨rest, hr, h⟩ := bind_eq_ok.mp h
    obtain ⟨left, right, hl, hright, rfl⟩ := ih hr
    refine ⟨slot ++ left, right, ?_, hright, ?_⟩
    · rw [writeFixedRegion, hs, ok_bind, hl]
      rfl
    · rw [List.append_assoc]
      exact (Except.ok.inj h).symm

/-- Reading a row's fixed fields under any schema that shares its layout. -/
theorem readFixedFields_row {w now : Schema} {rec : Record} {h : RecordHeader} {region : Bytes}
    {shared : List FieldDef} (hr : Readable w now rec shared) (hready : RowWritable rec shared)
    (hregion : writeFixedRegion rec (fixedFields 0 0 w.fields) = .ok region)
    (hwidths : fixedWidths shared < 2 ^ 32) :
    RecordCodec.readFixedFields (row w rec h region) (presenceBits rec w.fields)
      (headerLen + bitmapLen w.fields.length) 0 (fixedFields 0 0 now.fields) ∅ =
        .ok (restoreIf isFixed rec shared ∅) := by
  obtain ⟨wrest, hw, -⟩ := hr.writer
  obtain ⟨nrest, hn, -⟩ := hr.reader
  rw [hw, fixedFields_append] at hregion
  obtain ⟨left, right, hleft, -, rfl⟩ := writeFixedRegion_append hregion
  have hshared : RecordCodec.readFixedFields ((flagged w rec h).write ++
      presenceBits rec w.fields ++ (left ++ (right ++ rowTail w rec))) (presenceBits rec w.fields)
      (headerLen + bitmapLen w.fields.length) 0 (fixedFields 0 0 shared) ∅ =
        .ok (restoreIf isFixed rec shared ∅) :=
    readFixedFields_region hready 0 0 0 ∅ _ _ left
    hleft (by simp) (by simpa using hwidths) (by
      intro j hj
      rw [Nat.zero_add, bitGet_presenceBits, hw, List.getElem?_append_left hj])
  have hbuf : row w rec h (left ++ right) = (flagged w rec h).write ++
      presenceBits rec w.fields ++ (left ++ (right ++ rowTail w rec)) := by
    simp only [row, List.append_assoc]
  rw [hn, fixedFields_append, readFixedFields_append, hbuf, hshared, ok_bind]
  apply readFixedFields_absent
  intro x hx
  obtain ⟨j, hj, hget⟩ := fixedFields_index _ _ _ x hx
  have hlt := (List.getElem?_eq_some_iff.mp hget).1
  rw [bitGet_presenceBits, hr.absent x.index (by omega) (by rw [hn, List.length_append]; omega)]
  rfl

/-- The tail of a row, once its header and fixed fields have been read. -/
def afterFixed (w now : Schema) (rec : Record) (h : RecordHeader) (region : Bytes)
    (shared : List FieldDef) : Except Error (RecordHeader × Record) :=
  if w.mode = .fixed then .ok (flagged w rec h, restoreIf isFixed rec shared ∅)
  else do
    let r ← (RecordCodec.new now).readTail (row w rec h region) (presenceBits rec w.fields)
      (flagged w rec h).flags (headerLen + bitmapLen w.fields.length + fixedWidths w.fields)
      (restoreIf isFixed rec shared ∅)
    return (flagged w rec h, r)

theorem regionLen_now {w now : Schema} {rec : Record} {shared : List FieldDef}
    (hr : Readable w now rec shared) (hm : w.mode ≠ .fixed)
    (hwidths : fixedWidths shared < 2 ^ 32) :
    (RecordCodec.new now).fixedRegionLen.toNat = fixedWidths w.fields := by
  obtain ⟨wrest, hw, hwtail⟩ := hr.writer
  obtain ⟨nrest, hn, hntail⟩ := hr.reader
  rw [hntail hm, List.append_nil] at hn
  subst hn
  have hlen := regionLen_toNat 0 now.fields (by simpa using hwidths)
  rw [hw, fixedWidths_append, fixedWidths_of_variable (hwtail hm).1, Nat.add_zero]
  exact hlen.trans (Nat.zero_add _)

theorem decodeWithHeader_eq {w now : Schema} {rec : Record} {h : RecordHeader} {region : Bytes}
    {shared : List FieldDef} (hr : Readable w now rec shared) (hready : RowWritable rec shared)
    (hregion : writeFixedRegion rec (fixedFields 0 0 w.fields) = .ok region)
    (hwidths : fixedWidths shared < 2 ^ 32) (hversion : h.version = formatVersion) :
    (RecordCodec.new now).decodeWithHeader (row w rec h region) =
      afterFixed w now rec h region shared := by
  have hmode : (RecordCodec.new now).schema.mode = w.mode := hr.mode
  have hfields : (RecordCodec.new now).schema.fields = now.fields := rfl
  have hfixed : (RecordCodec.new now).fixed = fixedFields 0 0 now.fields := rfl
  have hfver : (flagged w rec h).version = formatVersion := by
    rw [flagged]
    split <;> exact hversion
  have hhead : RecordHeader.read (row w rec h region) = .ok (flagged w rec h) := by
    rw [row, readHeader_write, if_pos hfver]
  have hroom : headerLen + bitmapLen w.fields.length ≤ (row w rec h region).length := by
    simp only [row, List.length_append, writeHeader_length, presenceBits_length]
    omega
  have hslice : RecordCodec.slice (row w rec h region) headerLen
      (headerLen + bitmapLen w.fields.length) = presenceBits rec w.fields := by
    have := slice_middle (flagged w rec h).write (presenceBits rec w.fields)
      (region ++ rowTail w rec) (writeHeader_length _)
    rwa [presenceBits_length] at this
  rw [RecordCodec.decodeWithHeader, hhead, ok_bind, hmode, if_neg hr.declared, hfields, hfixed,
    hr.bitmap, afterFixed]
  simp only [ensure, if_pos hroom, ok_bind, hslice, readFixedFields_row hr hready hregion hwidths]
  by_cases hm : w.mode = .fixed
  · rw [if_pos hm, if_pos hm]
    rfl
  · rw [if_neg hm, if_neg hm, regionLen_now hr hm hwidths]

/-- A row written under `w` decodes under `now` to the fields they share, and
to whatever the overflow bag holds. -/
theorem decodeWithHeader_row {w now : Schema} {rec : Record} {h : RecordHeader} {region : Bytes}
    {shared : List FieldDef} (hr : Readable w now rec shared) (hready : RowReady rec shared)
    (hregion : writeFixedRegion rec (fixedFields 0 0 w.fields) = .ok region)
    (hlen : region.length = fixedWidths w.fields) (hfits : RowFits w rec h shared region)
    (hversion : h.version = formatVersion)
    (hflags : w.mode ≠ .fixed → (h.flags &&& hasOverflow ≠ 0 → extras w rec ≠ [])) :
    (RecordCodec.new now).decodeWithHeader (row w rec h region) =
      .ok (flagged w rec h, (restore rec shared).insertAll (extras w rec)) := by
  obtain ⟨wrest, hw, hwtail⟩ := hr.writer
  rw [decodeWithHeader_eq hr hready.writable hregion hfits.widths hversion, afterFixed, restore]
  by_cases hm : w.mode = .fixed
  · have hnil : extras w rec = [] := by simp [extras, hm, SchemaMode.allowsExtraFields]
    have hshared : ∀ f ∈ shared, isVariable f = false := fun f hf => by
      have := (w.fieldsValid.2 f (by rw [hw]; exact List.mem_append_left _ hf)).width hm
      rwa [isVariable, Option.isNone_eq_false_iff, Option.isSome_iff_ne_none]
    rw [if_pos hm, hnil, restoreIf_none hshared]
    rfl
  · obtain ⟨nrest, hn, hntail⟩ := hr.reader
    obtain ⟨-, hbagnil⟩ := hwtail hm
    rw [hntail hm, List.append_nil] at hn
    subst hn
    rw [if_neg hm, readTail_row hw hbagnil hm hready hlen (hfits.size hm)
      (flagged_hasOverflow (hflags hm)) hfits.depth]
    rfl

/-- A header that announces a bag the row does not have is refused. -/
theorem decodeWithHeader_noBag {s : Schema} {rec : Record} {h : RecordHeader} {region : Bytes}
    (hr : Readable s s rec s.fields) (hready : RowReady rec s.fields)
    (hregion : writeFixedRegion rec (fixedFields 0 0 s.fields) = .ok region)
    (hlen : region.length = fixedWidths s.fields) (hfits : RowFits s rec h s.fields region)
    (hversion : h.version = formatVersion) (hm : s.mode ≠ .fixed)
    (hflag : h.flags &&& hasOverflow ≠ 0) (hempty : extras s rec = []) :
    (RecordCodec.new s).decodeWithHeader (row s rec h region) =
      .error (.corruption "truncated varint") := by
  obtain ⟨bag, hbag, htail⟩ := readTail_eq (restoreIf isFixed rec s.fields ∅)
    (flagged s rec h).flags (List.append_nil s.fields).symm hm hlen
    (hfits.size hm)
  have hflags : (flagged s rec h).flags = h.flags := by rw [flagged, hempty]; rfl
  have hnil : bag = [] := by rw [hbag rfl, bagBytes, hempty]; rfl
  rw [decodeWithHeader_eq hr hready.writable hregion hfits.widths hversion, afterFixed, if_neg hm,
    htail, if_pos hready.shallow, hflags, if_pos hflag, hnil]
  rfl

end Adabt.Storage
