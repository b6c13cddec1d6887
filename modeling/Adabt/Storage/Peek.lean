import Adabt.Storage.RowDepth

/-! # Peeking at fields

One field of an encoded record, or a few of them, read without the rest. Peeking
agrees with decoding the record that holds only those fields, except at the two
places where the walk does not go: the overflow bag of a declared schema, and past
a value of a dynamic record that is nested too deep. -/

set_option autoImplicit false

namespace Adabt.Storage
open Adabt.Core Adabt.Library

namespace RecordCodec

/-- Walk the named values of a dynamic record up to the one with this name. -/
def peekNamed (field : String) : ℕ → Cursor → Except Error (Option OrdValue)
  | 0, _ => .ok none
  | n + 1, c => do
    let (klen, c) ← c.varint
    let (raw, c) ← c.take klen.toNat
    let (v, c) ← readTlvValue 0 c
    if raw = utf8 field then return some v else peekNamed field n c

def fixedOffset (c : RecordCodec) (i : ℕ) : UInt32 :=
  ((c.fixed.find? (·.index = i)).map (·.offset)).getD 0

/-- The first declared field with a name, and its position. -/
def position (fields : List FieldDef) (field : String) : Option (FieldDef × ℕ) :=
  fields.zipIdx.find? (·.1.name = field)

def peekSlot (c : RecordCodec) (buf : Bytes) (fixedAt i : ℕ) (f : FieldDef) (width : UInt32) :
    Except Error (Option OrdValue) := do
  let start := fixedAt + (c.fixedOffset i).toNat
  let stop := start + width.toNat
  ensure (stop ≤ buf.length)
    (.corruption ("fixed field " ++ toString i ++ " extends past the record"))
  let v ← readFixedField f.ty (slice buf start stop)
  return some v

def peekVariable (c : RecordCodec) (buf : Bytes) (fixedAt i : ℕ) :
    Except Error (Option OrdValue) := do
  let k := c.variableWidth.findIdx (·.index = i)
  let tableAt := fixedAt + c.fixedRegionLen.toNat
  ensure (tableAt + 4 * (c.variableWidth.length + 1) ≤ buf.length)
    (.corruption "record too short for its offset table")
  let lo := offsetAt buf tableAt k
  let hi := offsetAt buf tableAt (k + 1)
  ensure (lo ≤ hi ∧ hi ≤ buf.length)
    (.corruption ("offset table entry " ++ toString k ++ " is out of range"))
  let (v, _) ← readTlvValue 0 (.new (slice buf lo hi))
  return some v

/-- Decode one field. -/
def peekField (c : RecordCodec) (buf : Bytes) (field : String) :
    Except Error (Option OrdValue) :=
  if c.schema.mode = .dynamic then do
    let (_, cur) ← (Cursor.new buf).take headerLen
    let (n, cur) ← cur.varint
    peekNamed field n.toNat cur
  else
    match position c.schema.fields field with
    | none => .ok none
    | some (f, i) => do
      let bmLen := bitmapLen c.schema.fields.length
      ensure (headerLen + bmLen ≤ buf.length)
        (.corruption "record too short for its presence bitmap")
      if bitGet (slice buf headerLen (headerLen + bmLen)) i then
        match f.ty.fixedWidth with
        | some w => c.peekSlot buf (headerLen + bmLen) i f w
        | none => c.peekVariable buf (headerLen + bmLen) i
      else return none

def peekInto (c : RecordCodec) (buf : Bytes) : List String → Record → Except Error Record
  | [], out => .ok out
  | f :: rest, out => do
    match ← c.peekField buf f with
    | some v => peekInto c buf rest (out.set f v)
    | none => peekInto c buf rest out

/-- Decode only the listed fields; absent ones are not there. -/
def peekFields (c : RecordCodec) (buf : Bytes) (fields : List String) : Except Error Record :=
  c.peekInto buf fields ∅

/-- What decoding says of the listed fields alone: it decodes the record that holds
only them. -/
def decodeOn (c : RecordCodec) (rec : Record) (fields : List String) : Except Error Record := do
  let buf ← c.encode (rec.project fields)
  let r ← c.decode buf
  return r.project fields

/-- Peeking at a field is decoding it, and gives what the decoded record has. -/
def PeeksField (c : RecordCodec) (rec : Record) (buf : Bytes) (field : String) : Prop :=
  c.peekField buf field = (do return (← c.decodeOn rec [field]).get field) ∧
    ∀ r, c.decode buf = .ok r → c.peekField buf field = .ok (r.get field)

/-- Peeking at fields is decoding them, and projects the decoded record. -/
def PeeksFields (c : RecordCodec) (rec : Record) (buf : Bytes) (fields : List String) : Prop :=
  c.peekFields buf fields = c.decodeOn rec fields ∧
    ∀ r, c.decode buf = .ok r → c.peekFields buf fields = .ok (r.project fields)

end RecordCodec

/-! ## One field of a row -/

theorem position_append {pre post : List FieldDef} {f : FieldDef} {name : String}
    (hname : f.name = name) (hnot : ∀ g ∈ pre, g.name ≠ name) :
    RecordCodec.position (pre ++ f :: post) name = some (f, pre.length) := by
  have hpre : pre.zipIdx.find? (·.1.name = name) = none := by
    rw [List.find?_eq_none]
    intro x hx
    simpa using hnot x.1 (List.fst_mem_of_mem_zipIdx hx)
  rw [RecordCodec.position, List.zipIdx_append, List.find?_append, hpre, Option.none_or,
    List.zipIdx_cons, List.find?_cons_of_pos (by simpa using hname), Nat.zero_add]

theorem position_none {s : Schema} {name : String} (h : s.field name = none) :
    RecordCodec.position s.fields name = none := by
  rw [RecordCodec.position, List.find?_eq_none]
  intro x hx
  exact List.find?_eq_none.mp h x.1 (List.fst_mem_of_mem_zipIdx hx)

theorem field_split {s : Schema} {name : String} {f : FieldDef} (h : s.field name = some f) :
    f.name = name ∧ ∃ pre post, s.fields = pre ++ f :: post ∧ ∀ g ∈ pre, g.name ≠ name := by
  obtain ⟨hname, pre, post, hfields, hnot⟩ := List.find?_eq_some_iff_append.mp h
  exact ⟨by simpa using hname, pre, post, hfields, fun g hg => by simpa using hnot g hg⟩

theorem varFields_index (i : ℕ) (fields : List FieldDef) (x : VarField)
    (h : x ∈ varFields i fields) : i ≤ x.index ∧ x.index < i + fields.length := by
  induction fields generalizing i with
  | nil => cases h
  | cons f rest ih =>
    rw [varFields] at h
    rw [List.length_cons]
    cases hw : f.ty.fixedWidth with
    | some w =>
      rw [hw] at h
      have := ih (i + 1) h
      omega
    | none =>
      rw [hw] at h
      rcases List.mem_cons.mp h with rfl | h
      · exact ⟨le_refl i, by dsimp only; omega⟩
      · have := ih (i + 1) h
        omega

/-- The offset of a fixed-width field is the width of the fields before it. -/
theorem fixedOffset_eq {s : Schema} {pre post : List FieldDef} {f : FieldDef} {w : UInt32}
    (hfields : s.fields = pre ++ f :: post) (hw : f.ty.fixedWidth = some w)
    (hwidths : fixedWidths s.fields < 2 ^ 32) :
    ((RecordCodec.new s).fixedOffset pre.length).toNat = fixedWidths pre := by
  have hfixed : (RecordCodec.new s).fixed = fixedFields 0 0 pre ++
      ⟨pre.length, f, w, regionLen 0 pre⟩ ::
        fixedFields (pre.length + 1) (regionLen 0 pre + w) post := by
    change fixedFields 0 0 s.fields = _
    rw [hfields, fixedFields_append, Nat.zero_add, fixedFields, hw]
  have hpre : (fixedFields 0 0 pre).find? (·.index = pre.length) = none := by
    rw [List.find?_eq_none]
    intro x hx
    obtain ⟨j, hj, hget⟩ := fixedFields_index 0 0 pre x hx
    have := (List.getElem?_eq_some_iff.mp hget).1
    simp only [decide_eq_true_eq]
    omega
  have hsum : fixedWidths s.fields = fixedWidths pre + fixedWidths (f :: post) := by
    rw [hfields, fixedWidths_append]
  have hlen := regionLen_toNat 0 pre (by rw [UInt32.toNat_zero]; omega)
  rw [RecordCodec.fixedOffset, hfixed, List.find?_append, hpre, Option.none_or,
    List.find?_cons_of_pos (by simp), Option.map_some, Option.getD_some, hlen, UInt32.toNat_zero,
    Nat.zero_add]

/-- The table has the bounds of one variable field next to each other. -/
theorem varOffsets_split (rec : Record) (xs ys : List VarField) (y : VarField) (pos : ℕ) :
    (varOffsets rec (xs ++ y :: ys) pos)[xs.length]? = some (pos + (writeVariable rec xs).length) ∧
      (varOffsets rec (xs ++ y :: ys) pos)[xs.length + 1]? =
        some (pos + (writeVariable rec xs).length + (writePresent rec y.field).length) := by
  induction xs generalizing pos with
  | nil =>
    rw [List.nil_append, varOffsets, List.length_nil, List.getElem?_cons_zero,
      List.getElem?_cons_succ, varOffsets_head]
    exact ⟨rfl, rfl⟩
  | cons x xs ih =>
    have h := ih (pos + (writePresent rec x.field).length)
    rw [List.cons_append, varOffsets, List.length_cons, List.getElem?_cons_succ,
      List.getElem?_cons_succ, writeVariable, List.length_append]
    simpa only [Nat.add_assoc] using h

/-- A row as a peek addresses it: a head, the offset table, the variable region and the bag. -/
theorem row_eq {s : Schema} (rec : Record) (h : RecordHeader) (region : Bytes)
    (hm : s.mode ≠ .fixed) (hlen : region.length = fixedWidths s.fields) : ∃ head : Bytes,
    head.length = headerLen + bitmapLen s.fields.length + fixedWidths s.fields ∧
      row s rec h region = head ++ (writeTable (varOffsets rec (varFields 0 s.fields) (dataAt s)) ++
        (writeVariable rec (varFields 0 s.fields) ++ bagBytes s rec)) := by
  refine ⟨(flagged s rec h).write ++ (presenceBits rec s.fields ++ region), ?_, ?_⟩
  · simp only [List.length_append, writeHeader_length, presenceBits_length, hlen]
    omega
  · rw [row, rowTail, if_neg hm]
    simp only [List.append_assoc]

section OneField

variable {s : Schema} {rec : Record} {h : RecordHeader} {region : Bytes}
  {pre post : List FieldDef} {f : FieldDef} {v : OrdValue}

theorem peekSlot_row (hok : RowWritable rec s.fields) (hfields : s.fields = pre ++ f :: post)
    {w : UInt32} (hw : f.ty.fixedWidth = some w) (hwidths : fixedWidths s.fields < 2 ^ 32)
    (hregion : writeFixedRegion rec (fixedFields 0 0 s.fields) = .ok region)
    (hv : present rec f = some v) :
    (RecordCodec.new s).peekSlot (row s rec h region) (headerLen + bitmapLen s.fields.length)
      pre.length f w = .ok (some (stored f.ty v)) := by
  have hmem : f ∈ s.fields := by simp [hfields]
  have hpre : RowWritable rec pre := fun g hg => hok g (by simp [hfields, hg])
  have hsplit : fixedFields 0 0 s.fields = fixedFields 0 0 pre ++
      ⟨pre.length, f, w, regionLen 0 pre⟩ ::
        fixedFields (pre.length + 1) (regionLen 0 pre + w) post := by
    rw [hfields, fixedFields_append, Nat.zero_add, fixedFields, hw]
  rw [hsplit] at hregion
  obtain ⟨left, right, hleft, hright, rfl⟩ := writeFixedRegion_append hregion
  obtain ⟨left', hleft', hleftLen⟩ := writeFixedRegion_ok rec 0 0 pre hpre
  obtain rfl := Except.ok.inj (hleft.symm.trans hleft')
  obtain ⟨slot, hslot, hslotLen, hread⟩ := writeSlot_ok hw (hok f hmem).1 (hok f hmem).2
  rw [writeFixedRegion, hslot, ok_bind] at hright
  obtain ⟨rest, -, hcat⟩ := bind_eq_ok.mp hright
  obtain rfl : slot ++ rest = right := Except.ok.inj hcat
  have hbuf : row s rec h (left ++ (slot ++ rest)) = ((flagged s rec h).write ++
      (presenceBits rec s.fields ++ left)) ++ (slot ++ (rest ++ rowTail s rec)) := by
    simp only [row, List.append_assoc]
  have hhead : ((flagged s rec h).write ++ (presenceBits rec s.fields ++ left)).length =
      headerLen + bitmapLen s.fields.length + fixedWidths pre := by
    simp only [List.length_append, writeHeader_length, presenceBits_length, hleftLen]
    omega
  have hslice := slice_middle _ slot (rest ++ rowTail s rec) hhead
  rw [hslotLen] at hslice
  have hroom : headerLen + bitmapLen s.fields.length + fixedWidths pre + w.toNat ≤
      (row s rec h (left ++ (slot ++ rest))).length := by
    rw [hbuf, List.length_append, hhead, List.length_append, hslotLen]
    omega
  rw [hbuf] at hroom
  rw [RecordCodec.peekSlot]
  simp only [fixedOffset_eq hfields hw hwidths, ensure, if_pos hroom, ok_bind, hbuf, hslice,
    hread v hv]
  rfl

theorem peekVariable_row (hfields : s.fields = pre ++ f :: post) (hw : f.ty.fixedWidth = none)
    (hm : s.mode ≠ .fixed) (hlen : region.length = fixedWidths s.fields)
    (hsize : (row s rec h region).length < 2 ^ 32) (hv : present rec f = some v) :
    (RecordCodec.new s).peekVariable (row s rec h region) (headerLen + bitmapLen s.fields.length)
      pre.length = if v.1.nesting ≤ maxDepth then .ok (some v) else .error tooDeep := by
  have hlength := rowTail_length_le s rec region h hlen hm
  obtain ⟨head, hhead, hbuf⟩ := row_eq rec h region hm hlen
  set xs := varFields 0 pre with hxs
  set ys := varFields (pre.length + 1) post with hys
  have hvars : varFields 0 s.fields = xs ++ ⟨pre.length, f⟩ :: ys := by
    rw [hfields, varFields_append, Nat.zero_add, varFields, hw]
  have hk : (RecordCodec.new s).variableWidth.findIdx (·.index = pre.length) = xs.length := by
    change (varFields 0 s.fields).findIdx _ = _
    have hnone : xs.findIdx (·.index = pre.length) = xs.length :=
      List.findIdx_eq_length.mpr fun x hx => by
        have := (varFields_index 0 pre x hx).2
        simp only [decide_eq_false_iff_not]
        omega
    rw [hvars, List.findIdx_append, hnone, if_neg (lt_irrefl _), List.findIdx_cons]
    simp
  have hregionLen : (RecordCodec.new s).fixedRegionLen.toNat = fixedWidths s.fields := by
    have := regionLen_toNat 0 s.fields (by
      rw [UInt32.toNat_zero]
      unfold dataAt at hlength
      omega)
    rwa [UInt32.toNat_zero, Nat.zero_add] at this
  have hcount : (RecordCodec.new s).variableWidth.length = (varFields 0 s.fields).length := rfl
  have hat : dataAt s = head.length + 4 * ((varFields 0 s.fields).length + 1) := by
    rw [dataAt, hhead]
  have hoffs : ∀ j ≤ (varFields 0 s.fields).length,
      (varOffsets rec (varFields 0 s.fields) (dataAt s))[j]? =
        some (RecordCodec.offsetAt (row s rec h region) head.length j) := fun j hj => by
    rw [hbuf]
    have hread := @offsets_read rec head (writeVariable rec (varFields 0 s.fields) ++ bagBytes s rec)
      (varFields 0 s.fields) [] _ (dataAt s) rfl (by rw [List.append_nil]; omega) j hj
    rwa [List.append_nil] at hread
  have hsplit := varOffsets_split rec xs ys ⟨pre.length, f⟩ (dataAt s)
  rw [← hvars] at hsplit
  have hbound : xs.length + 1 ≤ (varFields 0 s.fields).length := by
    rw [hvars, List.length_append, List.length_cons]
    omega
  have hlo := Option.some.inj ((hoffs xs.length (by omega)).symm.trans hsplit.1)
  have hhi := Option.some.inj ((hoffs (xs.length + 1) hbound).symm.trans hsplit.2)
  have hpresent : writePresent rec f = writeTlv v.1 := by rw [writePresent, hv]
  dsimp only at hhi
  rw [hpresent] at hhi
  have hwhole : writeVariable rec (varFields 0 s.fields) =
      writeVariable rec xs ++ (writeTlv v.1 ++ writeVariable rec ys) := by
    rw [hvars, writeVariable_append, writeVariable]
    dsimp only
    rw [hpresent]
  have hslice : RecordCodec.slice (row s rec h region)
      (dataAt s + (writeVariable rec xs).length)
      (dataAt s + (writeVariable rec xs).length + (writeTlv v.1).length) = writeTlv v.1 := by
    have hcat : row s rec h region = (head ++ (writeTable (varOffsets rec (varFields 0 s.fields)
        (dataAt s)) ++ writeVariable rec xs)) ++
          (writeTlv v.1 ++ (writeVariable rec ys ++ bagBytes s rec)) := by
      rw [hbuf, hwhole]
      simp only [List.append_assoc]
    rw [hcat]
    apply slice_middle
    rw [List.length_append, List.length_append, writeTable_length, varOffsets_length, hat]
    omega
  rw [hwhole, List.length_append, List.length_append] at hlength
  have htable : head.length + 4 * ((varFields 0 s.fields).length + 1) ≤
      (row s rec h region).length := by omega
  have hbounds : dataAt s + (writeVariable rec xs).length ≤
      dataAt s + (writeVariable rec xs).length + (writeTlv v.1).length ∧
        dataAt s + (writeVariable rec xs).length + (writeTlv v.1).length ≤
          (row s rec h region).length := by omega
  rw [RecordCodec.peekVariable, hk, hregionLen, ← hhead, hcount]
  simp only [ensure, if_pos htable, ok_bind, hlo, hhi, if_pos hbounds, hslice, Cursor.new]
  have hshort : (writeTlv v.1).length < 2 ^ 64 := by omega
  by_cases hd : v.1.nesting ≤ maxDepth
  · have hread := readTlvValue_writeTlv v hd hshort 0 []
    rw [List.append_nil] at hread
    rw [hread, if_pos hd]
    rfl
  · have hread := readTlvValue_deep v (by omega) hshort 0 []
    rw [List.append_nil] at hread
    rw [hread, if_neg hd]
    rfl

end OneField

/-- What a peek at a row answers. -/
def peeked (s : Schema) (rec : Record) (name : String) : Except Error (Option OrdValue) :=
  match s.field name with
  | none => .ok none
  | some f => match present rec f with
    | none => .ok none
    | some v => if v.1.nesting ≤ maxDepth then .ok (some (stored f.ty v)) else .error tooDeep

theorem peekField_row {s : Schema} {rec : Record} {region : Bytes} (hd : s.mode ≠ .dynamic)
    (hok : Writable s rec) (hfits : Fits s rec)
    (hregion : writeFixedRegion rec (fixedFields 0 0 s.fields) = .ok region)
    (hlen : region.length = fixedWidths s.fields) (name : String) :
    (RecordCodec.new s).peekField (row s rec .new region) name = peeked s rec name := by
  have hsize := (row_length rec .new hlen hd).2
  have hwidths := @fixedWidths_lt s rec hd hfits
  rw [Fits, if_neg hd] at hfits
  have hroom : headerLen + bitmapLen s.fields.length ≤ (row s rec .new region).length := by
    simp only [row, List.length_append, writeHeader_length, presenceBits_length]
    omega
  have hslice : RecordCodec.slice (row s rec .new region) headerLen
      (headerLen + bitmapLen s.fields.length) = presenceBits rec s.fields := by
    have := slice_middle (flagged s rec .new).write (presenceBits rec s.fields)
      (region ++ rowTail s rec) (writeHeader_length _)
    rwa [presenceBits_length] at this
  have hmode : (RecordCodec.new s).schema.mode ≠ .dynamic := hd
  rw [RecordCodec.peekField, if_neg hmode, peeked]
  change (match RecordCodec.position s.fields name with | none => _ | some (f, i) => _) = _
  cases hf : s.field name with
  | none => rw [position_none hf]
  | some f =>
    obtain ⟨hname, pre, post, hfields, hnot⟩ := field_split hf
    have hpos : RecordCodec.position s.fields name = some (f, pre.length) := by
      rw [hfields, position_append hname hnot]
    have hbit : bitGet (presenceBits rec s.fields) pre.length = (present rec f).isSome := by
      rw [bitGet_presenceBits, hfields, List.getElem?_append_right (le_refl _), Nat.sub_self,
        List.getElem?_cons_zero, Option.bind_some]
    rw [hpos]
    change (ensure (headerLen + bitmapLen s.fields.length ≤ _) _ >>= fun _ => _) = _
    simp only [ensure, if_pos hroom, ok_bind]
    change (if bitGet (RecordCodec.slice _ headerLen (headerLen + bitmapLen s.fields.length)) _
      then _ else _) = _
    rw [hslice, hbit]
    cases hv : present rec f with
    | none => rfl
    | some v =>
      rw [Option.isSome_some, if_pos rfl]
      dsimp only
      cases hw : f.ty.fixedWidth with
      | some w =>
        have hready := (hok.slots f (by simp [hfields])).2 v hv (by rw [hw]; rfl)
        rw [if_pos (by rw [nesting_of_accepts hready.accepts (by rw [hw]; rfl)]; omega)]
        exact peekSlot_row hok.slots hfields hw hwidths hregion hv
      | none =>
        have hm : s.mode ≠ .fixed := fun hm =>
          (s.fieldsValid.2 f (by simp [hfields])).width hm hw
        rw [stored_of_variable hw]
        exact peekVariable_row hfields hw hm hlen (by omega) hv

/-! ## One name of a dynamic record -/

/-- What a walk along named values answers. -/
def walked (field : String) : List (String × OrdValue) → Except Error (Option OrdValue)
  | [] => .ok none
  | (k, v) :: es =>
    if v.1.nesting ≤ maxDepth then if k = field then .ok (some v) else walked field es
    else .error tooDeep

theorem utf8_inj {a b : String} : utf8 a = utf8 b ↔ a = b :=
  ⟨fun h => Option.some.inj ((decodeUtf8_utf8 a).symm.trans (by rw [h, decodeUtf8_utf8])),
    congrArg utf8⟩

theorem peekNamed_writeEntries (field : String) (oes : List (String × OrdValue)) (p : ℕ)
    (hlen : (writeEntries (oes.map fun e => (e.1, e.2.1))).length < 2 ^ 64) :
    RecordCodec.peekNamed field oes.length ⟨p, writeEntries (oes.map fun e => (e.1, e.2.1))⟩ =
      walked field oes := by
  induction oes generalizing p with
  | nil => rfl
  | cons e es ih =>
    obtain ⟨k, v⟩ := e
    simp only [List.map_cons, writeEntries, writeStr, List.length_append, utf8_length] at hlen
    rw [List.map_cons, writeEntries, List.length_cons, RecordCodec.peekNamed, walked]
    simp only [writeStr, List.append_assoc, varint_writeLen, ok_bind,
      toNat_ofNat_len (show k.utf8ByteSize < 2 ^ 64 by omega),
      Cursor.take_append _ (utf8 k) _ (utf8_length k), utf8_inj]
    by_cases hd : v.1.nesting ≤ maxDepth
    · rw [if_pos hd, readTlvValue_writeTlv v hd (by omega), ok_bind]
      dsimp only
      rw [ih _ (by omega)]
      rfl
    · rw [if_neg hd, readTlvValue_deep v (by omega) (by omega), error_bind]

/-- The record's value under a name is nested too deep. -/
def DeepAt (rec : Record) (field : String) : Prop := ∃ v ∈ rec.get field, maxDepth < v.1.nesting

/-- A value nested too deep lies on the walk to a name. -/
def Blocked (rec : Record) (field : String) : Prop :=
  ∃ e ∈ rec.entries, maxDepth < e.2.1.nesting ∧ (rec.get field = none ∨ e.1 ≤ field)

instance (rec : Record) (field : String) : Decidable (DeepAt rec field) :=
  inferInstanceAs (Decidable (∃ v ∈ rec.get field, _))

instance (rec : Record) (field : String) : Decidable (Blocked rec field) :=
  inferInstanceAs (Decidable (∃ e ∈ rec.entries, _))

theorem walked_sorted {es : List (String × OrdValue)} (hs : es.Pairwise (fun a b => a.1 < b.1))
    (field : String) : walked field es =
      if ∃ e ∈ es, maxDepth < e.2.1.nesting ∧ (OrdMap.find field es = none ∨ e.1 ≤ field) then
        .error tooDeep else .ok (OrdMap.find field es) := by
  induction es with
  | nil => simp [walked]
  | cons e es ih =>
    obtain ⟨k, v⟩ := e
    obtain ⟨hhead, htail⟩ := List.pairwise_cons.mp hs
    rw [walked]
    by_cases hd : v.1.nesting ≤ maxDepth
    · rw [if_pos hd]
      by_cases hk : k = field
      · subst hk
        have hfind : OrdMap.find k ((k, v) :: es) = some v := by simp [OrdMap.find]
        rw [if_pos rfl, hfind, if_neg]
        rintro ⟨e, he, hdeep, hle⟩
        rcases List.mem_cons.mp he with rfl | he
        · exact absurd hd (Nat.not_le.mpr hdeep)
        · exact absurd (hhead e he) (not_lt.mpr (by simpa using hle))
      · have hfind : OrdMap.find field ((k, v) :: es) = OrdMap.find field es := by
          rw [OrdMap.find, if_neg (Ne.symm hk)]
        rw [if_neg hk, ih htail, hfind]
        refine if_congr ⟨?_, ?_⟩ rfl rfl
        · rintro ⟨e, he, h⟩
          exact ⟨e, List.mem_cons_of_mem _ he, h⟩
        · rintro ⟨e, he, hdeep, h⟩
          rcases List.mem_cons.mp he with rfl | he
          · exact absurd hd (Nat.not_le.mpr hdeep)
          · exact ⟨e, he, hdeep, h⟩
    · rw [if_neg hd, if_pos]
      refine ⟨(k, v), List.mem_cons_self, Nat.not_le.mp hd, ?_⟩
      cases hfind : OrdMap.find field ((k, v) :: es) with
      | none => exact .inl rfl
      | some u =>
        have hmem := (OrdMap.find_eq_some_iff hs _ _).mp hfind
        rcases List.mem_cons.mp hmem with heq | hmem
        · exact .inr (le_of_eq (Prod.ext_iff.mp heq).1.symm)
        · exact .inr (hhead _ hmem).le

theorem walked_entries (rec : Record) (field : String) :
    walked field rec.entries =
      if Blocked rec field then .error tooDeep else .ok (rec.get field) :=
  walked_sorted rec.sorted field

/-! ## Peeking and decoding -/

theorem get_readAs {s : Schema} (rec : Record) (hd : s.mode ≠ .dynamic) (name : String) :
    (readAs s rec).get name = match s.field name with
      | some f => (present rec f).map (stored f.ty)
      | none => if s.mode.allowsExtraFields then rec.get name else none := by
  rw [readAs, if_neg hd, OrdMap.get_insertAll _ _ (extras_sorted s rec), find_extras,
    get_restore s.names_nodup]
  change _ = match s.field name with | some f => _ | none => _
  cases hf : s.field name with
  | some f =>
    have hfind : s.fields.find? (·.name = name) = some f := hf
    simp [hfind]
  | none =>
    have hfind : s.fields.find? (·.name = name) = none := hf
    simp [hfind]

/-- What a peek at an encoded record answers. -/
def seen (s : Schema) (rec : Record) (name : String) : Except Error (Option OrdValue) :=
  if s.mode = .dynamic then walked name rec.entries else peeked s rec name

theorem peekField_eq {s : Schema} {rec : Record} {bytes : Bytes} (hok : Writable s rec)
    (hfits : Fits s rec) (henc : (RecordCodec.new s).encode rec = .ok bytes) (name : String) :
    (RecordCodec.new s).peekField bytes name = seen s rec name := by
  rw [seen]
  by_cases hd : s.mode = .dynamic
  · have hmode : (RecordCodec.new s).schema.mode = .dynamic := hd
    rw [RecordCodec.encode, RecordCodec.encodeWithHeader, if_pos hmode, List.nil_append] at henc
    obtain rfl := Except.ok.inj henc
    have hlen := writeBag_length rec.entries
    have hcount := length_le_writeEntries (rawEntries rec)
    have hsize : rowSize s rec = headerLen + bagLen rec.entries := by rw [rowSize, hd]
    rw [Fits, if_pos hd, hsize] at hfits
    rw [← rawEntries, RecordCodec.writeBag, List.length_append] at hlen
    have hraw : (rawEntries rec).length = rec.entries.length := List.length_map ..
    have hskip : Cursor.take headerLen
        (.new (RecordHeader.new.write ++ RecordCodec.writeBag (rawEntries rec))) =
          .ok (RecordHeader.new.write, ⟨headerLen, RecordCodec.writeBag (rawEntries rec)⟩) := by
      rw [Cursor.new, Cursor.take_append 0 _ _ (writeHeader_length _), Nat.zero_add]
    rw [RecordCodec.peekField, if_pos hmode, if_pos hd, hskip, ok_bind]
    dsimp only
    rw [RecordCodec.writeBag, varint_writeLen, ok_bind]
    dsimp only
    rw [toNat_ofNat_len (by omega), hraw]
    exact peekNamed_writeEntries name rec.entries _ (by
      change (writeEntries (rawEntries rec)).length < _
      omega)
  · obtain ⟨region, hregion, hlen, hrow⟩ := encodeWithHeader_row s rec .new hd hok.slots
    obtain rfl := Except.ok.inj (hrow.symm.trans henc)
    rw [if_neg hd]
    exact peekField_row hd hok hfits hregion hlen name

/-- A value that both a peek and a decode of its field refuse. -/
def Refused (s : Schema) (rec : Record) (field : String) : Prop :=
  DeepAt rec field ∧ (s.mode = .declared → (s.field field).isSome)

/-- A field that a peek finds where decoding does: in a declared schema it is not in the
overflow bag, and in a dynamic one nothing nested too deep lies on the way to it. -/
def Peekable (s : Schema) (rec : Record) (field : String) : Prop :=
  (s.mode = .declared → s.field field = none → rec.get field = none) ∧
    (s.mode = .dynamic → Blocked rec field → DeepAt rec field)

/-- One of the fields is refused either way, or all of them are found. -/
def AllPeekable (s : Schema) (rec : Record) (fields : List String) : Prop :=
  (∃ f ∈ fields, Refused s rec f) ∨ ∀ f ∈ fields, Peekable s rec f

theorem deepAt_project {rec : Record} {names : List String} :
    ¬ (rec.project names).NestedAtMost maxDepth ↔ ∃ f ∈ names, DeepAt rec f := by
  constructor
  · intro h
    simp only [Record.NestedAtMost, not_forall, Nat.not_le] at h
    obtain ⟨⟨name, v⟩, he, hdeep⟩ := h
    have hget := (OrdMap.mem_entries _ name v).mp he
    rw [Record.get_project] at hget
    split at hget
    · exact ⟨name, by assumption, v, hget, hdeep⟩
    · cases hget
  · rintro ⟨f, hf, v, hv, hdeep⟩ h
    have hget : (rec.project names).get f = some v := by
      rw [Record.get_project, if_pos hf]
      exact hv
    have := h.get hget
    omega

theorem readAs_project {s : Schema} {rec : Record} (names : List String) :
    (readAs s (rec.project names)).project names = (readAs s rec).project names := by
  refine Record.project_congr fun name hn => ?_
  by_cases hd : s.mode = .dynamic
  · rw [readAs, readAs, if_pos hd, if_pos hd, Record.get_project, if_pos hn]
  · rw [get_readAs _ hd, get_readAs _ hd, Record.get_project, if_pos hn]
    cases hf : s.field name with
    | none => rfl
    | some f =>
      dsimp only
      rw [present, present, (field_split hf).1, Record.get_project, if_pos hn]

/-- Decoding the listed fields alone. -/
theorem decodeOn_eq {s : Schema} {rec : Record} (hok : Writable s rec) (hfits : Fits s rec)
    (names : List String) : (RecordCodec.new s).decodeOn rec names =
      if ∃ f ∈ names, DeepAt rec f then .error tooDeep
      else .ok ((readAs s rec).project names) := by
  obtain ⟨bytes, henc, hdec⟩ := encode_decode (hok.project names) (hfits.project names)
  rw [RecordCodec.decodeOn, henc, ok_bind, hdec]
  by_cases hn : (rec.project names).NestedAtMost maxDepth
  · rw [if_pos hn, if_neg (deepAt_project.not.mp (not_not.mpr hn)), ok_bind]
    exact congrArg _ (readAs_project names)
  · rw [if_neg hn, if_pos (deepAt_project.mp hn), error_bind]

theorem seen_refused {s : Schema} {rec : Record} {name : String} (hok : Writable s rec)
    (h : Refused s rec name) : seen s rec name = .error tooDeep := by
  obtain ⟨⟨v, hv, hdeep⟩, hdecl⟩ := h
  have hget : rec.get name = some v := hv
  rw [seen]
  by_cases hd : s.mode = .dynamic
  · rw [if_pos hd, walked_entries, if_pos]
    exact ⟨(name, v), (OrdMap.mem_entries rec name v).mpr hget, hdeep, .inr (le_refl _)⟩
  · have hsome : (s.field name).isSome := by
      cases hm : s.mode with
      | dynamic => exact absurd hm hd
      | declared => exact hdecl hm
      | strict | fixed => exact hok.known (by rw [hm]; rfl) name v hget
    obtain ⟨f, hf⟩ := Option.isSome_iff_exists.mp hsome
    have hp : present rec f = some v :=
      present_of_get (by rw [(field_split hf).1]; exact hget) (by omega)
    rw [if_neg hd, peeked, hf]
    dsimp only
    rw [hp]
    exact if_neg (by omega)

theorem seen_found {s : Schema} {rec : Record} {name : String}
    (h : Peekable s rec name) (hdeep : ¬ DeepAt rec name) :
    seen s rec name = .ok ((readAs s rec).get name) := by
  rw [seen]
  by_cases hd : s.mode = .dynamic
  · rw [if_pos hd, walked_entries, if_neg fun hb => hdeep (h.2 hd hb), readAs, if_pos hd]
  · rw [if_neg hd, peeked, get_readAs rec hd]
    cases hf : s.field name with
    | none =>
      dsimp only
      cases hm : s.mode with
      | dynamic => exact absurd hm hd
      | declared =>
        rw [h.1 hm hf]
        rfl
      | strict | fixed => rfl
    | some f =>
      dsimp only
      cases hp : present rec f with
      | none => rfl
      | some v =>
        have hget := (Option.filter_eq_some_iff.mp hp).1
        rw [(field_split hf).1] at hget
        exact if_pos (Nat.not_lt.mp fun hlt => hdeep ⟨v, hget, hlt⟩)

/-- A field that is not found: the bag is not searched, or the walk stops before it. -/
theorem seen_missed {s : Schema} {rec : Record} {name : String} (h : ¬ Peekable s rec name) :
    (s.mode = .dynamic ∧ ¬ DeepAt rec name ∧ seen s rec name = .error tooDeep) ∨
      (s.mode = .declared ∧ s.field name = none ∧ rec.get name ≠ none ∧
        seen s rec name = .ok none) := by
  rw [Peekable, not_and_or] at h
  rcases h with h | h
  · simp only [Classical.not_imp] at h
    obtain ⟨hm, hf, hget⟩ := h
    refine .inr ⟨hm, hf, hget, ?_⟩
    rw [seen, if_neg (by rw [hm]; decide), peeked, hf]
  · simp only [Classical.not_imp] at h
    obtain ⟨hm, hb, hdeep⟩ := h
    refine .inl ⟨hm, hdeep, ?_⟩
    rw [seen, if_pos hm, walked_entries, if_pos hb]

theorem readAs_of_decode {s : Schema} {rec r : Record} {bytes : Bytes} (hok : Writable s rec)
    (hfits : Fits s rec) (henc : (RecordCodec.new s).encode rec = .ok bytes)
    (hdec : (RecordCodec.new s).decode bytes = .ok r) :
    r = readAs s rec ∧ ∀ name, ¬ DeepAt rec name := by
  obtain ⟨bytes', henc', hdec'⟩ := encode_decode hok hfits
  obtain rfl := Except.ok.inj (henc.symm.trans henc')
  rw [hdec] at hdec'
  split at hdec'
  · rename_i hn
    refine ⟨Except.ok.inj hdec', fun name ⟨v, hv, hdeep⟩ => ?_⟩
    have := hn.get hv
    omega
  · cases hdec'

theorem refused_of_deep {s : Schema} {rec : Record} {name : String} (h : Peekable s rec name)
    (hd : DeepAt rec name) : Refused s rec name := by
  refine ⟨hd, fun hm => Option.isSome_iff_ne_none.mpr fun hf => ?_⟩
  obtain ⟨v, hv, -⟩ := hd
  rw [h.1 hm hf] at hv
  cases hv

theorem peeksField_iff {s : Schema} {rec : Record} {bytes : Bytes} (hok : Writable s rec)
    (hfits : Fits s rec) (henc : (RecordCodec.new s).encode rec = .ok bytes) (name : String) :
    (RecordCodec.new s).PeeksField rec bytes name ↔ Peekable s rec name := by
  have hproject : ((readAs s rec).project [name]).get name = (readAs s rec).get name := by
    rw [Record.get_project, if_pos List.mem_cons_self]
  rw [RecordCodec.PeeksField, peekField_eq hok hfits henc, decodeOn_eq hok hfits]
  simp only [List.mem_singleton, exists_eq_left]
  constructor
  · rintro ⟨heq, -⟩
    by_contra hn
    rcases seen_missed hn with ⟨-, hdeep, hseen⟩ | ⟨hm, hf, hget, hseen⟩
    · rw [hseen, if_neg hdeep] at heq
      cases heq
    · by_cases hdeep : DeepAt rec name
      · rw [hseen, if_pos hdeep] at heq
        cases heq
      · rw [hseen, if_neg hdeep, ok_bind, hproject, get_readAs rec (by rw [hm]; decide), hf] at heq
        refine hget ?_
        have := Except.ok.inj heq
        rwa [hm, eq_comm] at this
  · intro h
    by_cases hdeep : DeepAt rec name
    · rw [seen_refused hok (refused_of_deep h hdeep), if_pos hdeep]
      refine ⟨rfl, fun r hr => absurd hdeep ((readAs_of_decode hok hfits henc hr).2 name)⟩
    · rw [seen_found h hdeep, if_neg hdeep, ok_bind, hproject]
      exact ⟨rfl, fun r hr => by rw [(readAs_of_decode hok hfits henc hr).1]⟩

/-- Peeks that all find something put it together. -/
theorem peekInto_found {c : RecordCodec} {buf : Bytes} {value : String → Option OrdValue}
    {names : List String} (h : ∀ f ∈ names, c.peekField buf f = .ok (value f)) (out : Record) :
    ∃ r, c.peekInto buf names out = .ok r ∧
      ∀ name, r.get name = if name ∈ names then (value name).or (out.get name) else out.get name := by
  induction names generalizing out with
  | nil => exact ⟨out, rfl, fun name => by simp⟩
  | cons f rest ih =>
    have hrest := fun out => ih (fun g hg => h g (List.mem_cons_of_mem _ hg)) out
    rw [RecordCodec.peekInto, h f List.mem_cons_self, ok_bind]
    cases hv : value f with
    | none =>
      obtain ⟨r, hr, hget⟩ := hrest out
      refine ⟨r, hr, fun name => ?_⟩
      rw [hget]
      by_cases hname : name = f
      · subst hname
        simp [hv]
      · simp [hname]
    | some v =>
      obtain ⟨r, hr, hget⟩ := hrest (out.set f v)
      refine ⟨r, hr, fun name => ?_⟩
      rw [hget]
      by_cases hname : name = f
      · subst hname
        simp [hv, Record.set]
      · have hkeep : (out.set f v).get name = out.get name := OrdMap.get_insert_ne out v hname
        simp [hname, hkeep]

/-- One refused peek refuses them all. -/
theorem peekInto_refused {c : RecordCodec} {buf : Bytes} {e : Error} {names : List String}
    (hall : ∀ f ∈ names, c.peekField buf f = .error e ∨ ∃ v, c.peekField buf f = .ok v)
    (hone : ∃ f ∈ names, c.peekField buf f = .error e) (out : Record) :
    c.peekInto buf names out = .error e := by
  induction names generalizing out with
  | nil =>
    obtain ⟨f, hf, -⟩ := hone
    cases hf
  | cons g rest ih =>
    rw [RecordCodec.peekInto]
    rcases hall g List.mem_cons_self with hg | ⟨v, hg⟩
    · rw [hg, error_bind]
    · obtain ⟨f, hf, he⟩ := hone
      have hmem : f ∈ rest := by
        rcases List.mem_cons.mp hf with rfl | hf
        · rw [hg] at he
          cases he
        · exact hf
      have hrest := fun out => ih (fun x hx => hall x (List.mem_cons_of_mem _ hx)) ⟨f, hmem, he⟩ out
      rw [hg, ok_bind]
      cases v with
      | none => exact hrest out
      | some v => exact hrest _

theorem seen_cases {s : Schema} {rec : Record} (hok : Writable s rec) (name : String) :
    seen s rec name = .error tooDeep ∨ ∃ v, seen s rec name = .ok v := by
  by_cases h : Peekable s rec name
  · by_cases hdeep : DeepAt rec name
    · exact .inl (seen_refused hok (refused_of_deep h hdeep))
    · exact .inr ⟨_, seen_found h hdeep⟩
  · rcases seen_missed h with ⟨-, -, hs⟩ | ⟨-, -, -, hs⟩
    · exact .inl hs
    · exact .inr ⟨none, hs⟩

theorem peeksFields_iff {s : Schema} {rec : Record} {bytes : Bytes} (hok : Writable s rec)
    (hfits : Fits s rec) (henc : (RecordCodec.new s).encode rec = .ok bytes)
    (names : List String) :
    (RecordCodec.new s).PeeksFields rec bytes names ↔ AllPeekable s rec names := by
  have hseen := peekField_eq hok hfits henc
  have hall : ∀ f ∈ names, (RecordCodec.new s).peekField bytes f = .error tooDeep ∨
      ∃ v, (RecordCodec.new s).peekField bytes f = .ok v := fun f _ => by
    rw [hseen]
    exact seen_cases hok f
  rw [RecordCodec.PeeksFields, RecordCodec.peekFields, decodeOn_eq hok hfits]
  by_cases href : ∃ f ∈ names, Refused s rec f
  · obtain ⟨f, hf, hr⟩ := href
    have herr := peekInto_refused hall ⟨f, hf, (hseen f).trans (seen_refused hok hr)⟩ ∅
    rw [herr, if_pos ⟨f, hf, hr.1⟩]
    exact iff_of_true ⟨rfl, fun r hd => absurd hr.1 ((readAs_of_decode hok hfits henc hd).2 f)⟩
      (.inl ⟨f, hf, hr⟩)
  · rw [AllPeekable, or_iff_right href]
    constructor
    · rintro ⟨heq, -⟩ f hf
      by_contra hn
      rcases seen_missed hn with ⟨hm, hdeep, hs⟩ | ⟨hm, hfield, hget, hs⟩
      · have hshallow : ¬ ∃ g ∈ names, DeepAt rec g := fun ⟨g, hg, hd⟩ =>
          href ⟨g, hg, hd, fun hm' => by rw [hm] at hm'; cases hm'⟩
        rw [peekInto_refused hall ⟨f, hf, (hseen f).trans hs⟩, if_neg hshallow] at heq
        cases heq
      · have hfound : ∀ g ∈ names, ∃ v, seen s rec g = .ok v := fun g hg => by
          by_cases hp : Peekable s rec g
          · have hdeep : ¬ DeepAt rec g := fun hd => href ⟨g, hg, refused_of_deep hp hd⟩
            exact ⟨_, seen_found hp hdeep⟩
          · rcases seen_missed hp with ⟨hm', -, -⟩ | ⟨-, -, -, h⟩
            · rw [hm] at hm'
              cases hm'
            · exact ⟨none, h⟩
        let value (g : String) : Option OrdValue := match seen s rec g with
          | .ok v => v
          | .error _ => none
        obtain ⟨r, hr, hrget⟩ := @peekInto_found (RecordCodec.new s) bytes value names (fun g hg => by
            obtain ⟨v, hv⟩ := hfound g hg
            simp only [value, hseen, hv]) ∅
        have hnone : r.get f = none := by
          rw [hrget, if_pos hf]
          simp only [value, hs, OrdMap.get_empty, Option.or_none]
        rw [hr] at heq
        split at heq
        · cases heq
        · obtain rfl := Except.ok.inj heq
          rw [Record.get_project, if_pos hf, get_readAs rec (by rw [hm]; decide), hfield] at hnone
          exact hget (by rwa [hm] at hnone)
    · intro h
      have hdeep : ∀ f ∈ names, ¬ DeepAt rec f := fun f hf hd =>
        href ⟨f, hf, refused_of_deep (h f hf) hd⟩
      obtain ⟨r, hr, hget⟩ := @peekInto_found (RecordCodec.new s) bytes (readAs s rec).get names
        (fun f hf => (hseen f).trans (seen_found (h f hf) (hdeep f hf))) ∅
      have hproject : r = (readAs s rec).project names := by
        ext name : 1
        rw [hget, Record.get_project, OrdMap.get_empty, Option.or_none]
      rw [hr, if_neg fun ⟨f, hf, hd⟩ => hdeep f hf hd, hproject]
      exact ⟨rfl, fun r' hd => by rw [(readAs_of_decode hok hfits henc hd).1]⟩

/-- Peeking is decoding exactly where the walk goes. -/
theorem peeks_iff {s : Schema} {rec : Record} {bytes : Bytes}
    (hok : s.validateRecord rec = .ok ())
    (henc : (RecordCodec.new s).encode rec = .ok bytes) (hfits : Fits s rec) :
    (∀ field, (RecordCodec.new s).PeeksField rec bytes field ↔ Peekable s rec field) ∧
      ∀ fields, (RecordCodec.new s).PeeksFields rec bytes fields ↔ AllPeekable s rec fields :=
  ⟨peeksField_iff (writable_of_valid hok) hfits henc,
    peeksFields_iff (writable_of_valid hok) hfits henc⟩

def bagSchema : Schema := ⟨.declared, [⟨"n", .i64, true⟩], rfl⟩

def bagRecord : Record := (∅ : Record).set "n" ⟨.i64 7, trivial⟩ |>.set "x" ⟨.i64 1, trivial⟩

def bagBuffer : Bytes :=
  [1, 2, 0, 0, 0, 0, 0, 0, 0, 0, 1, 7, 0, 0, 0, 0, 0, 0, 0, 23, 0, 0, 0, 1, 1, 120, 3, 2]

theorem peeks_declared : (RecordCodec.new bagSchema).PeeksField bagRecord bagBuffer "n" ∧
    (RecordCodec.new bagSchema).PeeksFields bagRecord bagBuffer ["n", "y"] := by
  have h := @peeks_iff bagSchema bagRecord bagBuffer (by decide +kernel) (by decide +kernel)
    (by decide +kernel)
  refine ⟨(h.1 "n").mpr ⟨fun _ hf => ?_, nofun⟩, (h.2 ["n", "y"]).mpr (.inr fun f hf => ?_)⟩
  · cases hf
  · refine ⟨fun _ hfield => ?_, nofun⟩
    rcases List.mem_cons.mp hf with rfl | hf
    · cases hfield
    · obtain rfl := List.mem_singleton.mp hf
      rfl

/-- A field in the overflow bag is decoded and not peeked at. -/
theorem bag_unseen : bagSchema.validateRecord bagRecord = .ok () ∧
    (RecordCodec.new bagSchema).encode bagRecord = .ok bagBuffer ∧
    ¬ (RecordCodec.new bagSchema).PeeksField bagRecord bagBuffer "x" ∧
    ¬ (RecordCodec.new bagSchema).PeeksFields bagRecord bagBuffer ["x"] := by
  have hdec : (RecordCodec.new bagSchema).decode bagBuffer = .ok bagRecord := rfl
  have hpeek : (RecordCodec.new bagSchema).peekField bagBuffer "x" = .ok none := rfl
  refine ⟨by decide +kernel, by decide +kernel, fun h => ?_, fun h => ?_⟩
  · have heq := hpeek.symm.trans (h.2 bagRecord hdec)
    cases heq
  · have heq := h.2 bagRecord hdec
    rw [RecordCodec.peekFields, RecordCodec.peekInto, hpeek] at heq
    cases heq

end Adabt.Storage
