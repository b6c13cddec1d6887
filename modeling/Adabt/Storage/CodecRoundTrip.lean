import Adabt.Storage.CodecRows
import Adabt.Storage.FixedSlot
import Mathlib.Data.List.Forall2

/-! # The codec undoes itself

Decoding an encoded record gives back every field as its slot stored it. The
stored record equals the original unless an unsigned integer past `i64::MAX`
went into a signed field, so that is where the round trip breaks. -/

set_option autoImplicit false

namespace Adabt.Storage
open Adabt.Core Adabt.Library

theorem find_name_eq_none {fields : List FieldDef} {name : String}
    (h : ∀ f ∈ fields, f.name ≠ name) : fields.find? (·.name = name) = none := by
  rw [List.find?_eq_none]
  intro f hf
  simpa using h f hf

/-- A restored field comes from the record; any other keeps what was there. -/
theorem get_restoreIf {p : FieldDef → Bool} {rec : Record} {fields : List FieldDef} (r : Record)
    (hn : (fields.map (·.name)).Nodup) (name : String) :
    (restoreIf p rec fields r).get name =
      (((fields.find? (·.name = name)).filter p).bind fun f =>
        (present rec f).map (stored f.ty)).or (r.get name) := by
  induction fields generalizing r with
  | nil => rfl
  | cons f rest ih =>
    obtain ⟨hnot, hnodup⟩ := List.nodup_cons.mp hn
    rw [restoreIf, ih _ hnodup]
    by_cases hname : f.name = name
    · have hrest : rest.find? (·.name = name) = none := find_name_eq_none fun g hg he =>
        hnot (List.mem_map.mpr ⟨g, hg, he.trans hname.symm⟩)
      rw [hrest, List.find?_cons_of_pos (by simpa using hname)]
      cases hp : p f with
      | false => simp [hp, Option.filter_some]
      | true =>
        cases hv : present rec f with
        | none => simp [restoreField, hv, hp, Option.filter_some]
        | some v => simp [restoreField, hv, hp, Option.filter_some, Record.set, hname]
    · rw [List.find?_cons_of_neg (by simpa using hname)]
      congr 1
      split
      · rw [restoreField]
        split
        · exact OrdMap.get_insert_ne _ _ (Ne.symm hname)
        · rfl
      · rfl

theorem get_restore {rec : Record} {fields : List FieldDef}
    (hn : (fields.map (·.name)).Nodup) (name : String) :
    (restore rec fields).get name = (fields.find? (·.name = name)).bind fun f =>
      (present rec f).map (stored f.ty) := by
  rw [restore, get_restoreIf _ hn, get_restoreIf _ hn]
  cases fields.find? (·.name = name) with
  | none => rfl
  | some f =>
    cases hw : f.ty.fixedWidth with
    | none => simp [isFixed, isVariable, hw, Option.filter_some]
    | some w => simp [isFixed, isVariable, hw, Option.filter_some]

/-- What a schema's codec gives back for a record. -/
def asStored (s : Schema) (rec : Record) : Record :=
  if s.mode = .dynamic then rec
  else rec.mapVal fun name v =>
    match s.field name with
    | some f => stored f.ty v
    | none => v

theorem present_of_noNull {rec : Record} (h : ¬ rec.HasNull) (f : FieldDef) :
    present rec f = rec.get f.name := by
  rw [present]
  cases hg : rec.get f.name with
  | none => rfl
  | some v => simp [Record.not_null_of_get h hg]

theorem mem_extras {s : Schema} {rec : Record} {e : String × OrdValue} (h : e ∈ extras s rec) :
    rec.get e.1 = some e.2 := by
  rw [extras] at h
  split at h
  · exact (OrdMap.mem_entries rec _ _).mp (List.mem_filter.mp h).1
  · cases h

theorem extras_sorted (s : Schema) (rec : Record) :
    (extras s rec).Pairwise (fun a b => a.1 < b.1) := by
  rw [extras]
  split
  · exact rec.sorted.filter _
  · exact List.Pairwise.nil

theorem find_extras (s : Schema) (rec : Record) (name : String) :
    OrdMap.find name (extras s rec) =
      if s.mode.allowsExtraFields ∧ s.field name = none then rec.get name else none := by
  refine Option.ext fun v => ?_
  rw [OrdMap.find_eq_some_iff (extras_sorted s rec), extras]
  by_cases ha : s.mode.allowsExtraFields = true
  · rw [if_pos ha, List.mem_filter, OrdMap.mem_entries]
    by_cases hf : s.field name = none
    · simp [ha, hf]
    · simp [hf]
  · simp [ha]

theorem validateRecord_ok {s : Schema} {rec : Record} {u : Unit}
    (h : s.validateRecord rec = .ok u) :
    (s.mode.allowsExtraFields = false → ∀ name v, rec.get name = some v →
      (s.field name).isSome) ∧ ∀ f ∈ s.fields, Schema.checkField rec f = .ok () := by
  rw [Schema.validateRecord] at h
  cases hm : s.mode.allowsExtraFields with
  | true =>
    rw [if_pos hm, ok_bind] at h
    exact ⟨fun hf => (by cases hf), checkAll_eq_ok.mp h⟩
  | false =>
    rw [if_neg (by simp [hm])] at h
    obtain ⟨_, hkeys, hfields⟩ := bind_eq_ok.mp h
    refine ⟨fun _ name v hv => ?_, checkAll_eq_ok.mp hfields⟩
    have hk : name ∈ rec.keys := (OrdMap.mem_keys rec name).mpr (by rw [hv]; rfl)
    simpa using checkAll_eq_ok.mp hkeys name hk

theorem checkWidth_ok {field : String} {len : ℕ} {cap : UInt32} {u : Unit}
    (h : Schema.checkWidth field (some len) (some cap) = .ok u) : len ≤ cap.toNat := by
  simpa [Schema.checkWidth] using h

/-- A present value of a validated record is ready for its slot. -/
theorem slotReady_of_checkField {rec : Record} {f : FieldDef} {v : OrdValue} {u : Unit}
    (h : Schema.checkField rec f = .ok u) (hv : present rec f = some v) : SlotReady f.ty v := by
  obtain ⟨hget, hnull⟩ := Option.filter_eq_some_iff.mp hv
  have hn : v.1.isNull = false := by simpa using hnull
  simp only [Schema.checkField, hget, hn] at h
  obtain ⟨_, hacc, h⟩ := bind_eq_ok.mp h
  obtain ⟨_, hcap, -⟩ := bind_eq_ok.mp h
  refine ⟨ensure_eq_ok.mp hacc, hn, fun len cap hlen hc => ?_⟩
  rw [hlen, hc] at hcap
  exact checkWidth_ok hcap

/-- Bytes of the variable region, computed without writing it. -/
def variableLen (rec : Record) : List VarField → ℕ
  | [] => 0
  | x :: xs => (match present rec x.field with
      | some v => tlvLen v.1
      | none => 0) + variableLen rec xs

def bagLen (oes : List (String × OrdValue)) : ℕ :=
  lenBound oes.length + entriesLen (oes.map fun e => (e.1, e.2.1))

/-- The size of an encoded record under a schema. -/
def rowSize (s : Schema) (rec : Record) : ℕ :=
  match s.mode with
  | .dynamic => headerLen + bagLen rec.entries
  | .fixed => headerLen + bitmapLen s.fields.length + fixedWidths s.fields
  | .declared | .strict =>
    dataAt s + variableLen rec (varFields 0 s.fields) + bagLen (extras s rec)

/-- The record's offsets fit the 32 bits its layout keeps them in; a dynamic
record has no offsets and only has to fit in memory. -/
def Fits (s : Schema) (rec : Record) : Prop :=
  rowSize s rec < if s.mode = .dynamic then 2 ^ 64 else 2 ^ 32

instance (s : Schema) (rec : Record) : Decidable (Fits s rec) :=
  inferInstanceAs (Decidable (_ < _))

theorem writeVariable_length (rec : Record) (xs : List VarField) :
    (writeVariable rec xs).length = variableLen rec xs := by
  induction xs with
  | nil => simp [writeVariable, variableLen]
  | cons x xs ih =>
    rw [writeVariable, variableLen, List.length_append, writePresent]
    cases present rec x.field with
    | none => simpa using ih
    | some v =>
      have := writeTlv_length v.1
      simp only
      omega

theorem writeBag_length (oes : List (String × OrdValue)) :
    (RecordCodec.writeBag (oes.map fun e => (e.1, e.2.1))).length = bagLen oes := by
  have h1 := writeLen_length (oes.map fun e => (e.1, e.2.1)).length
  have h2 := writeEntries_length (oes.map fun e => (e.1, e.2.1))
  rw [List.length_map] at h1
  rw [RecordCodec.writeBag, bagLen, List.length_append, List.length_map]
  omega

theorem writePresent_length_le (rec : Record) (i : ℕ) {f : FieldDef} {fields : List FieldDef}
    (hf : f ∈ fields) (hw : f.ty.fixedWidth = none) :
    (writePresent rec f).length ≤ (writeVariable rec (varFields i fields)).length := by
  induction fields generalizing i with
  | nil => cases hf
  | cons g rest ih =>
    rw [varFields]
    rcases List.mem_cons.mp hf with rfl | hf
    · rw [hw, writeVariable, List.length_append]
      exact Nat.le_add_right _ _
    · have := ih (i + 1) hf
      cases g.ty.fixedWidth with
      | some w => exact this
      | none =>
        rw [writeVariable, List.length_append]
        omega

theorem bagBytes_length_le (s : Schema) (rec : Record) :
    (bagBytes s rec).length ≤ bagLen (extras s rec) := by
  rw [bagBytes]
  split
  · simp
  · exact (writeBag_length _).le

theorem offsetTable_of_mode {s : Schema} (hd : s.mode ≠ .dynamic) (hf : s.mode ≠ .fixed)
    (rec : Record) : rowSize s rec =
      dataAt s + variableLen rec (varFields 0 s.fields) + bagLen (extras s rec) := by
  rw [rowSize]
  cases hm : s.mode <;> simp_all

/-- A validated record with bounded nesting is ready field by field. -/
theorem rowReady {s : Schema} {rec : Record} {u : Unit} (hd : s.mode ≠ .dynamic)
    (hok : s.validateRecord rec = .ok u) (hnest : rec.NestedAtMost maxDepth)
    (hfits : Fits s rec) : RowReady rec s.fields := by
  intro f hf
  refine ⟨(s.fieldsValid.2 f hf).capacity, fun v hv => ?_⟩
  rw [ValueReady]
  split
  · exact slotReady_of_checkField ((validateRecord_ok hok).2 f hf) hv
  · rename_i hw
    have hnone : f.ty.fixedWidth = none := by simpa using hw
    have hmode : s.mode ≠ .fixed := fun hm => (s.fieldsValid.2 f hf).width hm hnone
    refine ⟨hnest.get (Option.filter_eq_some_iff.mp hv).1, ?_⟩
    have h1 := writePresent_length_le rec 0 hf hnone
    have h2 := writeVariable_length rec (varFields 0 s.fields)
    rw [Fits, if_neg hd, offsetTable_of_mode hd hmode] at hfits
    have hp : writePresent rec f = writeTlv v.1 := by rw [writePresent, hv]
    rw [hp] at h1
    omega

theorem readable_self {s : Schema} (rec : Record) (hd : s.mode ≠ .dynamic) :
    Readable s s rec s.fields where
  mode := rfl
  declared := hd
  writer := ⟨[], (List.append_nil _).symm, fun _ => ⟨fun _ hf => (by cases hf), fun _ => rfl⟩⟩
  reader := ⟨[], (List.append_nil _).symm, fun _ => rfl⟩
  bitmap := rfl
  absent := fun j hle hlt => absurd hle (Nat.not_le.mpr hlt)

theorem row_length_le {s : Schema} (rec : Record) (h : RecordHeader) {region : Bytes}
    (hregion : region.length = fixedWidths s.fields) (hd : s.mode ≠ .dynamic)
    (hf : s.mode ≠ .fixed) : (row s rec h region).length ≤ rowSize s rec := by
  have h1 := writeVariable_length rec (varFields 0 s.fields)
  have h2 := bagBytes_length_le s rec
  rw [rowTail_length_le s rec region h hregion hf, offsetTable_of_mode hd hf]
  omega

theorem fixedWidths_lt {s : Schema} {rec : Record} (hd : s.mode ≠ .dynamic)
    (hfits : Fits s rec) : fixedWidths s.fields < 2 ^ 32 := by
  rw [Fits, if_neg hd, rowSize] at hfits
  cases hm : s.mode <;> simp_all [dataAt] <;> omega

theorem rowFits {s : Schema} {rec : Record} {h : RecordHeader} {region : Bytes}
    (hregion : region.length = fixedWidths s.fields) (hd : s.mode ≠ .dynamic)
    (hnest : rec.NestedAtMost maxDepth) (hfits : Fits s rec) :
    RowFits s rec h s.fields region where
  widths := fixedWidths_lt hd hfits
  size := fun hf => by
    have := row_length_le rec h hregion hd hf
    rw [Fits, if_neg hd] at hfits
    omega
  depth := fun e he => hnest.get (mem_extras he)

/-- The fields a row restores and the fields its bag holds are the whole record. -/
theorem restore_extras {s : Schema} {rec : Record} {u : Unit} (hd : s.mode ≠ .dynamic)
    (hok : s.validateRecord rec = .ok u) (hnull : ¬ rec.HasNull) :
    (restore rec s.fields).insertAll (extras s rec) = asStored s rec := by
  refine OrdMap.ext_get fun name => ?_
  rw [OrdMap.get_insertAll _ _ (extras_sorted s rec), find_extras, get_restore s.names_nodup,
    asStored, if_neg hd, OrdMap.get_mapVal]
  show _ = (rec.get name).map fun v => match s.field name with
    | some f => stored f.ty v
    | none => v
  cases hf : s.field name with
  | some f =>
    have hfind : s.fields.find? (·.name = name) = some f := hf
    have hname : f.name = name := by simpa using List.find?_some hfind
    simp [hfind, present_of_noNull hnull, hname]
  | none =>
    have hfind : s.fields.find? (·.name = name) = none := hf
    cases ha : s.mode.allowsExtraFields with
    | true => simp [hfind]
    | false =>
      have hnone : rec.get name = none := by
        cases hg : rec.get name with
        | none => rfl
        | some v => simpa [hf] using (validateRecord_ok hok).1 ha name v hg
      simp [hfind, hnone]

/-- The header a record comes back with: a bag is announced, nothing else changes. -/
def storedHeader (s : Schema) (rec : Record) (h : RecordHeader) : RecordHeader :=
  if s.mode = .dynamic then h else flagged s rec h

/-- A caller's header may announce a bag only where the decoder ignores it or
the record has one. -/
def HeaderFits (s : Schema) (rec : Record) (h : RecordHeader) : Prop :=
  h.version = formatVersion ∧ (s.mode = .declared ∨ s.mode = .strict →
    h.flags &&& hasOverflow ≠ 0 → extras s rec ≠ [])

theorem decode_dynamic {s : Schema} {rec : Record} {h : RecordHeader} (hd : s.mode = .dynamic)
    (hnest : rec.NestedAtMost maxDepth) (hfits : Fits s rec) :
    (RecordCodec.new s).encodeWithHeader rec h [] =
        .ok (h.write ++ RecordCodec.writeBag (rawEntries rec)) ∧
      (h.version = formatVersion →
        (RecordCodec.new s).decodeWithHeader (h.write ++ RecordCodec.writeBag (rawEntries rec)) =
          .ok (h, rec)) := by
  have hmode : (RecordCodec.new s).schema.mode = .dynamic := hd
  constructor
  · rw [RecordCodec.encodeWithHeader, if_pos hmode, List.nil_append]
  · intro hv
    have hlen := writeBag_length rec.entries
    have hsize : rowSize s rec = headerLen + bagLen rec.entries := by rw [rowSize, hd]
    rw [Fits, if_pos hd, hsize] at hfits
    have hbag := readBag_writeBag "record" rec.entries ∅ headerLen
      hnest (by omega)
    have hskip : Cursor.take headerLen (.new (h.write ++ RecordCodec.writeBag (rawEntries rec))) =
        .ok (h.write, ⟨headerLen, RecordCodec.writeBag (rawEntries rec)⟩) := by
      rw [Cursor.new, Cursor.take_append 0 _ _ (writeHeader_length h), Nat.zero_add]
    rw [RecordCodec.decodeWithHeader, readHeader_write, if_pos hv, ok_bind, if_pos hmode, hskip]
    simp only [ok_bind, rawEntries, hbag, OrdMap.insertAll_entries]
    rfl

theorem decode_wrongVersion {s : Schema} {h : RecordHeader} {rest : Bytes}
    (hv : h.version ≠ formatVersion) :
    ∃ e, (RecordCodec.new s).decodeWithHeader (h.write ++ rest) = .error e := by
  rw [RecordCodec.decodeWithHeader, readHeader_write, if_neg hv]
  exact ⟨_, rfl⟩

/-- Encoding a validated record succeeds, and decoding gives back what each
slot stored, with the caller's header. -/
theorem decode_encode {s : Schema} {rec : Record} {h : RecordHeader} {u : Unit}
    (hok : s.validateRecord rec = .ok u) (hnull : ¬ rec.HasNull)
    (hnest : rec.NestedAtMost maxDepth) (hfits : Fits s rec) :
    ∃ bytes, (RecordCodec.new s).encodeWithHeader rec h [] = .ok bytes ∧
      (HeaderFits s rec h → (RecordCodec.new s).decodeWithHeader bytes =
        .ok (storedHeader s rec h, asStored s rec)) ∧
      (¬ HeaderFits s rec h → ∃ e, (RecordCodec.new s).decodeWithHeader bytes = .error e) := by
  by_cases hd : s.mode = .dynamic
  · obtain ⟨henc, hdec⟩ := decode_dynamic (h := h) hd hnest hfits
    refine ⟨_, henc, fun hh => ?_, fun hh => decode_wrongVersion fun hv => hh ⟨hv, ?_⟩⟩
    · rw [hdec hh.1, storedHeader, if_pos hd, asStored, if_pos hd]
    · simp [hd]
  · have hready := rowReady hd hok hnest hfits
    obtain ⟨region, hregion, hlen, henc⟩ := encodeWithHeader_row s rec h hd hready.writable
    have hself := readable_self rec hd
    have hrow := rowFits (h := h) hlen hd hnest hfits
    refine ⟨_, henc, fun hh => ?_, fun hh => ?_⟩
    · have hflags : s.mode ≠ .fixed → h.flags &&& hasOverflow ≠ 0 → extras s rec ≠ [] := by
        intro hm
        exact hh.2 (by cases hs : s.mode <;> simp_all)
      rw [decodeWithHeader_row hself hready hregion hlen hrow hh.1 hflags,
        restore_extras hd hok hnull, storedHeader, if_neg hd]
    · by_cases hv : h.version = formatVersion
      · have hbad : (s.mode = .declared ∨ s.mode = .strict) ∧ h.flags &&& hasOverflow ≠ 0 ∧
            extras s rec = [] := by
          by_contra hc
          exact hh ⟨hv, fun hm hf he => hc ⟨hm, hf, he⟩⟩
        obtain ⟨hm, hflag, hempty⟩ := hbad
        have hmode : s.mode ≠ .fixed := by rcases hm with hm | hm <;> simp [hm]
        exact ⟨_, decodeWithHeader_noBag hself hready hregion hlen hrow hv hmode hflag hempty⟩
      · have hfver : (flagged s rec h).version ≠ formatVersion := by
          rw [flagged]
          split <;> exact hv
        rw [row]
        exact decode_wrongVersion hfver

/-- No unsigned value past `i64::MAX` sits in a signed field. -/
def NoWideUnsigned (s : Schema) (rec : Record) : Prop :=
  s.mode = .dynamic ∨ ∀ f ∈ s.fields, ∀ v ∈ rec.get f.name, wideUnsigned f.ty v.1 = false

instance (s : Schema) (rec : Record) : Decidable (NoWideUnsigned s rec) :=
  inferInstanceAs (Decidable (_ ∨ _))

theorem asStored_eqv_iff {s : Schema} {rec : Record} {u : Unit}
    (hok : s.validateRecord rec = .ok u) (hnull : ¬ rec.HasNull) :
    (asStored s rec).Eqv rec ↔ NoWideUnsigned s rec := by
  by_cases hd : s.mode = .dynamic
  · refine ⟨fun _ => .inl hd, fun _ => ?_⟩
    rw [asStored, if_pos hd]
    exact List.forall₂_same.mpr fun e _ => ⟨rfl, .refl _⟩
  · rw [Record.Eqv, asStored, if_neg hd, OrdMap.mapVal, List.forall₂_map_left_iff,
      List.forall₂_same, NoWideUnsigned]
    have hiff : ∀ f ∈ s.fields, ∀ v, rec.get f.name = some v →
        ((stored f.ty v).1.Eqv v.1 ↔ wideUnsigned f.ty v.1 = false) := fun f hf v hv => by
      have hready := slotReady_of_checkField ((validateRecord_ok hok).2 f hf)
        ((present_of_noNull hnull f).trans hv)
      exact stored_eqv_iff hready.accepts hready.present
    constructor
    · refine fun h => .inr fun f hf v hv => (hiff f hf v hv).mp ?_
      have := (h (f.name, v) ((OrdMap.mem_entries rec _ _).mpr hv)).2
      simpa [s.field_of_mem hf] using this
    · intro h
      have hw := h.resolve_left hd
      rintro ⟨name, v⟩ he
      have hv := (OrdMap.mem_entries rec _ _).mp he
      refine ⟨rfl, ?_⟩
      cases hf : s.field name with
      | none => simpa [hf] using Value.Eqv.refl v.1
      | some f =>
        have hmem : f ∈ s.fields := List.mem_of_find?_eq_some hf
        have hname : f.name = name := by simpa using List.find?_some hf
        have hv' : rec.get f.name = some v := hname ▸ hv
        simpa [hf] using (hiff f hmem v hv').mpr (hw f hmem v hv')

/-- Encoding with a header succeeds, the record read back equals the original,
and so do the txn id and every flag but the bag's. -/
def RoundTrips (s : Schema) (rec : Record) (h : RecordHeader) : Prop :=
  ∃ bytes h' rec', (RecordCodec.new s).encodeWithHeader rec h [] = .ok bytes ∧
    (RecordCodec.new s).decodeWithHeader bytes = .ok (h', rec') ∧ rec'.Eqv rec ∧
    h'.txn = h.txn ∧ h'.flags &&& ~~~hasOverflow = h.flags &&& ~~~hasOverflow

theorem storedHeader_same (s : Schema) (rec : Record) (h : RecordHeader) :
    (storedHeader s rec h).txn = h.txn ∧
      (storedHeader s rec h).flags &&& ~~~hasOverflow = h.flags &&& ~~~hasOverflow := by
  have hmask : ∀ x : UInt8, (x ||| hasOverflow) &&& ~~~hasOverflow = x &&& ~~~hasOverflow := by
    intro x
    apply UInt8.toBitVec_inj.mp
    ext i hi
    simp only [UInt8.toBitVec_and, UInt8.toBitVec_or, UInt8.toBitVec_not, BitVec.getElem_and,
      BitVec.getElem_or, BitVec.getElem_not]
    cases x.toBitVec[i] <;> cases hasOverflow.toBitVec[i] <;> rfl
  rw [storedHeader, flagged]
  split_ifs
  · exact ⟨rfl, rfl⟩
  · exact ⟨rfl, rfl⟩
  · exact ⟨rfl, hmask h.flags⟩

/-- The round trip holds of a validated record exactly when no wide unsigned
value is in a signed field and the caller's header announces no missing bag. -/
theorem roundTrips_iff (s : Schema) (rec : Record) (h : RecordHeader)
    (hok : s.validateRecord rec = .ok ()) (hnull : ¬ rec.HasNull)
    (hnest : rec.NestedAtMost maxDepth) (hfits : Fits s rec) :
    RoundTrips s rec h ↔ NoWideUnsigned s rec ∧ HeaderFits s rec h := by
  obtain ⟨bytes, henc, hgood, hbad⟩ := decode_encode (h := h) hok hnull hnest hfits
  constructor
  · rintro ⟨b, h', r, hb, hdec, heqv, -, -⟩
    obtain rfl : bytes = b := Except.ok.inj (henc.symm.trans hb)
    have hh : HeaderFits s rec h := by
      by_contra hh
      obtain ⟨e, he⟩ := hbad hh
      rw [he] at hdec
      cases hdec
    obtain ⟨-, rfl⟩ := Prod.mk.inj (Except.ok.inj ((hgood hh).symm.trans hdec))
    exact ⟨(asStored_eqv_iff hok hnull).mp heqv, hh⟩
  · rintro ⟨hw, hh⟩
    obtain ⟨htxn, hflags⟩ := storedHeader_same s rec h
    exact ⟨bytes, _, _, henc, hgood hh, (asStored_eqv_iff hok hnull).mpr hw, htxn, hflags⟩

def signedSchema : Schema := ⟨.strict, [⟨"n", .i64, true⟩, ⟨"s", .str none, true⟩], rfl⟩

def narrowRecord : Record := (∅ : Record).set "n" ⟨.u64 7, trivial⟩ |>.set "s" ⟨.str "x", trivial⟩

def wideRecord : Record := (∅ : Record).set "n" ⟨.u64 9223372036854775808, trivial⟩

theorem roundTrips_narrow : RoundTrips signedSchema narrowRecord ⟨1, 1, 9⟩ :=
  (roundTrips_iff signedSchema narrowRecord ⟨1, 1, 9⟩ (by decide) (by decide) (by decide)
    (by decide)).mpr ⟨by decide, rfl, by decide⟩

/-- A strict schema accepts 2^63 in a signed field and gives back -2^63. -/
theorem wide_unsigned_lost : signedSchema.validateRecord wideRecord = .ok () ∧
    ¬ wideRecord.HasNull ∧ wideRecord.NestedAtMost maxDepth ∧
    ∃ bytes rec, (RecordCodec.new signedSchema).encode wideRecord = .ok bytes ∧
      (RecordCodec.new signedSchema).decode bytes = .ok rec ∧
      rec = (∅ : Record).set "n" ⟨.i64 (-9223372036854775808), trivial⟩ ∧ ¬ rec.Eqv wideRecord := by
  refine ⟨by decide +kernel, by decide +kernel, by decide +kernel, [1, 0, 0, 0, 0, 0, 0, 0, 0, 0, 1, 0, 0, 0, 0, 0, 0, 0,
    128, 27, 0, 0, 0, 27, 0, 0, 0], (∅ : Record).set "n" ⟨.i64 (-9223372036854775808), trivial⟩, ?_, ?_, rfl,
    by decide +kernel⟩
  · decide +kernel
  · rfl

end Adabt.Storage
