import Adabt.Storage.CodecRoundTrip

/-! # Rows nested too deep

A record that fits its schema is always written. It reads back exactly when none of its
values is nested beyond the reader's limit, and otherwise it is refused. -/

set_option autoImplicit false

namespace Adabt.Storage
open Adabt.Core Adabt.Library

theorem nestingEntries_gt {n : ℕ} {oes : List (String × OrdValue)} {e : String × OrdValue}
    (he : e ∈ oes) (hd : n < e.2.1.nesting) :
    n + 1 < Value.nestingEntries (oes.map fun e => (e.1, e.2.1)) := by
  induction oes with
  | nil => cases he
  | cons x rest ih =>
    rw [List.map_cons, Value.nestingEntries]
    rcases List.mem_cons.mp he with rfl | he
    · omega
    · have := ih he
      omega

/-- A bag that holds a value nested too deep is refused. -/
theorem readBag_deep (what : String) (oes : List (String × OrdValue)) (r : Record) (p : ℕ)
    (hd : ∃ e ∈ oes, maxDepth < e.2.1.nesting)
    (hlen : (RecordCodec.writeBag (oes.map fun e => (e.1, e.2.1))).length < 2 ^ 64) :
    RecordCodec.readBag what r ⟨p, RecordCodec.writeBag (oes.map fun e => (e.1, e.2.1))⟩ =
      .error tooDeep := by
  obtain ⟨e, he, hdeep⟩ := hd
  set es := oes.map fun e => (e.1, e.2.1) with hes
  rw [RecordCodec.writeBag, List.length_append] at hlen
  have hcount := length_le_writeEntries es
  have hread := readEntries_deep es (orderedEntries_map oes) (maxDepth + 1)
    (nestingEntries_gt he hdeep) (by omega) (p + (writeLen es.length).length) [] r
  rw [List.append_nil] at hread
  rw [RecordCodec.readBag, RecordCodec.writeBag, varint_writeLen]
  have hroom : es.length ≤ (Cursor.mk (p + (writeLen es.length).length)
      (writeEntries es)).remaining := hcount
  simp only [ok_bind, toNat_ofNat_len (show es.length < 2 ^ 64 by omega), ensure, if_pos hroom,
    readTlvValue, Nat.sub_zero, hread]
  rfl

/-- The bag a record's named values are written to, read back or refused. -/
theorem readBag_eq (what : String) (oes : List (String × OrdValue)) (r : Record) (p : ℕ)
    (hlen : (RecordCodec.writeBag (oes.map fun e => (e.1, e.2.1))).length < 2 ^ 64) :
    RecordCodec.readBag what r ⟨p, RecordCodec.writeBag (oes.map fun e => (e.1, e.2.1))⟩ =
      if ∀ e ∈ oes, e.2.1.nesting ≤ maxDepth then .ok (r.insertAll oes) else .error tooDeep := by
  split
  · exact readBag_writeBag what oes r p (by assumption) hlen
  · rename_i hd
    simp only [not_forall, Nat.not_le] at hd
    obtain ⟨e, he, hd⟩ := hd
    exact readBag_deep what oes r p ⟨e, he, hd⟩ hlen

/-- A record that the codec writes whole: its slots take their values, and a field
the schema does not declare has a place to go. -/
structure Writable (s : Schema) (rec : Record) : Prop where
  slots : RowWritable rec s.fields
  known : s.mode.allowsExtraFields = false → ∀ name v, rec.get name = some v →
    (s.field name).isSome

theorem writable_of_valid {s : Schema} {rec : Record} {u : Unit}
    (hok : s.validateRecord rec = .ok u) : Writable s rec where
  slots := fun f hf => ⟨(s.fieldsValid.2 f hf).capacity, fun _ hv _ =>
    slotReady_of_checkField ((validateRecord_ok hok).2 f hf) hv⟩
  known := (validateRecord_ok hok).1

/-- A record with some of the fields is written where the whole record is. -/
theorem Writable.project {s : Schema} {rec : Record} (h : Writable s rec) (names : List String) :
    Writable s (rec.project names) where
  slots := fun f hf => ⟨(h.slots f hf).1, fun v hv hw => (h.slots f hf).2 v (by
    rw [present, Record.get_project] at hv
    split at hv
    · exact hv
    · cases hv) hw⟩
  known := fun ha name v hv => h.known ha name v (by
    rw [Record.get_project] at hv
    split at hv
    · exact hv
    · cases hv)

/-- A slot takes no list and no map. -/
theorem nesting_of_accepts {ty : FieldType} {v : Value} (ha : ty.accepts v)
    (hw : ty.fixedWidth.isSome) : v.nesting = 0 := by
  cases v with
  | list items => cases ty <;> simp_all [FieldType.accepts, FieldType.fixedWidth]
  | map m => cases ty <;> simp_all [FieldType.accepts, FieldType.fixedWidth]
  | _ => rfl

theorem present_of_get {rec : Record} {f : FieldDef} {v : OrdValue} (hv : rec.get f.name = some v)
    (hn : v.1.nesting ≠ 0) : present rec f = some v := by
  rw [present, hv, Option.filter_some, if_pos]
  cases hv : v.1 <;> simp_all [Value.isNull, Value.nesting]

/-- What has to be shallow is what the variable region and the bag hold. -/
theorem nestedAtMost_iff {s : Schema} {rec : Record} (hok : Writable s rec) : rec.NestedAtMost maxDepth ↔
      Shallow rec s.fields ∧ ∀ e ∈ extras s rec, e.2.1.nesting ≤ maxDepth := by
  constructor
  · intro h
    exact ⟨fun f _ _ v hv => h.get (Option.filter_eq_some_iff.mp hv).1, fun e he =>
      h.get (mem_extras he)⟩
  · rintro ⟨hs, he⟩ ⟨name, v⟩ hmem
    have hv := (OrdMap.mem_entries rec name v).mp hmem
    by_contra hdeep
    have hzero : v.1.nesting ≠ 0 := fun h0 => hdeep (h0 ▸ Nat.zero_le _)
    cases hf : s.field name with
    | some f =>
      have hmemf : f ∈ s.fields := List.mem_of_find?_eq_some hf
      obtain rfl : f.name = name := by simpa using List.find?_some hf
      have hp := present_of_get hv hzero
      cases hw : f.ty.fixedWidth with
      | none => exact hdeep (hs f hmemf (by simp [isVariable, hw]) v hp)
      | some w =>
        have hready := (hok.slots f hmemf).2 v hp (by rw [hw]; rfl)
        exact hzero (nesting_of_accepts hready.accepts (by rw [hw]; rfl))
    | none =>
      cases ha : s.mode.allowsExtraFields with
      | true =>
        refine hdeep (he (name, v) ?_)
        rw [extras, if_pos ha]
        exact List.mem_filter.mpr ⟨hmem, by simp [hf]⟩
      | false =>
        have hdeclared := hok.known ha name v hv
        rw [hf] at hdeclared
        cases hdeclared

/-- What decoding gives back for a record that is not nested too deep. -/
def readAs (s : Schema) (rec : Record) : Record :=
  if s.mode = .dynamic then rec else (restore rec s.fields).insertAll (extras s rec)

/-- Bytes of a whole row. -/
theorem row_length {s : Schema} (rec : Record) (h : RecordHeader) {region : Bytes}
    (hregion : region.length = fixedWidths s.fields) (hd : s.mode ≠ .dynamic) :
    rowSize s rec ≤ (row s rec h region).length + 1 ∧
      (row s rec h region).length ≤ rowSize s rec := by
  by_cases hf : s.mode = .fixed
  · have hsize : rowSize s rec = headerLen + bitmapLen s.fields.length + fixedWidths s.fields := by
      rw [rowSize, hf]
    rw [hsize, row, rowTail, if_pos hf]
    simp only [List.length_append, writeHeader_length, presenceBits_length, hregion,
      List.length_nil]
    omega
  · have hlen := rowTail_length_le s rec region h hregion hf
    have hvar := writeVariable_length rec (varFields 0 s.fields)
    have hbag : bagLen (extras s rec) ≤ (bagBytes s rec).length + 1 := by
      rw [bagBytes]
      split
      · rename_i he
        rw [List.isEmpty_iff.mp he]
        decide
      · rw [writeBag_length]
        omega
    have hsize := offsetTable_of_mode hd hf rec
    exact ⟨by omega, row_length_le rec h hregion hd hf⟩

/-- Decoding a row. -/
theorem decode_row {s : Schema} {rec : Record} {region : Bytes}
    (hd : s.mode ≠ .dynamic) (hok : Writable s rec) (hfits : Fits s rec)
    (hregion : writeFixedRegion rec (fixedFields 0 0 s.fields) = .ok region)
    (hlen : region.length = fixedWidths s.fields) :
    (RecordCodec.new s).decode (row s rec .new region) =
      if rec.NestedAtMost maxDepth then .ok (readAs s rec) else .error tooDeep := by
  have hsize := (row_length rec .new hlen hd).2
  rw [Fits, if_neg hd] at hfits
  have hself := readable_self rec hd
  have hwidths := @fixedWidths_lt s rec hd (by rwa [Fits, if_neg hd])
  have hnone : extras s rec ≠ [] → s.mode ≠ .fixed := fun he hm =>
    he (by simp [extras, hm, SchemaMode.allowsExtraFields])
  rw [RecordCodec.decode, decodeWithHeader_eq hself hok.slots hregion hwidths rfl,
    afterFixed, if_congr (nestedAtMost_iff hok) rfl rfl, readAs, if_neg hd]
  by_cases hm : s.mode = .fixed
  · have hnil : extras s rec = [] := by simp [extras, hm, SchemaMode.allowsExtraFields]
    have hslots : ∀ f ∈ s.fields, isVariable f = false := fun f hf => by
      have := (s.fieldsValid.2 f hf).width hm
      rwa [isVariable, Option.isNone_eq_false_iff, Option.isSome_iff_ne_none]
    have hshallow : Shallow rec s.fields := fun f hf hvar => by
      rw [hslots f hf] at hvar
      cases hvar
    rw [if_pos hm, hnil, if_pos ⟨hshallow, fun _ he => by cases he⟩, restore,
      restoreIf_none hslots]
    rfl
  · obtain ⟨bag, hbag, htail⟩ := readTail_eq (restoreIf isFixed rec s.fields ∅)
      (flagged s rec .new).flags (List.append_nil s.fields).symm hm hlen
      (show (row s rec .new region).length < 2 ^ 32 by omega)
    rw [if_neg hm, htail]
    by_cases hs : Shallow rec s.fields
    · rw [if_pos hs]
      have hflag := @flagged_hasOverflow s rec .new fun hz => absurd rfl hz
      by_cases he : extras s rec = []
      · rw [if_neg (by rw [hflag]; exact fun hne => hne he), he, if_pos ⟨hs, fun _ h => by cases h⟩]
        rfl
      · have hbytes : bagBytes s rec =
            RecordCodec.writeBag ((extras s rec).map fun e => (e.1, e.2.1)) := by
          rw [bagBytes, if_neg (by simpa using he)]
        have hshort : (bagBytes s rec).length < 2 ^ 64 := by
          have := rowTail_length_le s rec region .new hlen hm
          omega
        rw [if_pos (hflag.mpr he), hbag rfl, hbytes, Cursor.new,
          readBag_eq _ _ _ _ (by rwa [← hbytes])]
        by_cases hx : ∀ e ∈ extras s rec, e.2.1.nesting ≤ maxDepth
        · rw [if_pos hx, if_pos ⟨hs, hx⟩]
          rfl
        · rw [if_neg hx, if_neg fun h => hx h.2]
          rfl
    · rw [if_neg hs, if_neg fun h => hs h.1]
      rfl

/-- A record is written, and read back unless it is nested too deep. -/
theorem encode_decode {s : Schema} {rec : Record} (hok : Writable s rec)
    (hfits : Fits s rec) : ∃ bytes, (RecordCodec.new s).encode rec = .ok bytes ∧
      (RecordCodec.new s).decode bytes =
        if rec.NestedAtMost maxDepth then .ok (readAs s rec) else .error tooDeep := by
  by_cases hd : s.mode = .dynamic
  · have hmode : (RecordCodec.new s).schema.mode = .dynamic := hd
    have hsize : rowSize s rec = headerLen + bagLen rec.entries := by rw [rowSize, hd]
    rw [Fits, if_pos hd, hsize] at hfits
    refine ⟨RecordHeader.new.write ++ RecordCodec.writeBag (rawEntries rec), ?_, ?_⟩
    · rw [RecordCodec.encode, RecordCodec.encodeWithHeader, if_pos hmode, List.nil_append]
    · have hskip : Cursor.take headerLen
          (.new (RecordHeader.new.write ++ RecordCodec.writeBag (rawEntries rec))) =
            .ok (RecordHeader.new.write, ⟨headerLen, RecordCodec.writeBag (rawEntries rec)⟩) := by
        rw [Cursor.new, Cursor.take_append 0 _ _ (writeHeader_length _), Nat.zero_add]
      have hlen := writeBag_length rec.entries
      have hread := readBag_eq "record" rec.entries ∅ headerLen (by omega)
      rw [← rawEntries, OrdMap.insertAll_entries] at hread
      change _ = if rec.NestedAtMost maxDepth then _ else _ at hread
      have hversion : RecordHeader.new.version = formatVersion := rfl
      rw [RecordCodec.decode, RecordCodec.decodeWithHeader, readHeader_write, if_pos hversion,
        ok_bind, if_pos hmode, hskip]
      simp only [ok_bind, hread, readAs, if_pos hd]
      split <;> rfl
  · obtain ⟨region, hregion, hlen, henc⟩ := encodeWithHeader_row s rec .new hd hok.slots
    exact ⟨_, henc, decode_row hd hok hfits hregion hlen⟩

/-- A row's length bounds what its layout has to address. -/
theorem fits_of_encode {s : Schema} {rec : Record} {bytes : Bytes}
    (hok : Writable s rec) (henc : (RecordCodec.new s).encode rec = .ok bytes)
    (hlen : bytes.length + 1 < 2 ^ 32) : Fits s rec := by
  by_cases hd : s.mode = .dynamic
  · have hmode : (RecordCodec.new s).schema.mode = .dynamic := hd
    rw [RecordCodec.encode, RecordCodec.encodeWithHeader, if_pos hmode, List.nil_append] at henc
    obtain rfl := Except.ok.inj henc
    have hbag := writeBag_length rec.entries
    rw [← rawEntries] at hbag
    rw [List.length_append, writeHeader_length, hbag] at hlen
    have hsize : rowSize s rec = headerLen + bagLen rec.entries := by rw [rowSize, hd]
    rw [Fits, if_pos hd]
    omega
  · obtain ⟨region, -, hregion, hrow⟩ := encodeWithHeader_row s rec .new hd hok.slots
    obtain rfl := Except.ok.inj (hrow.symm.trans henc)
    have := (row_length rec .new hregion hd).1
    rw [Fits, if_neg hd]
    omega

/-! ## A record with some of the fields -/

theorem encodedLenLoop_mono (fuel : ℕ) {a b : ℕ} (h : a ≤ b) :
    Varint.encodedLenLoop fuel a ≤ Varint.encodedLenLoop fuel b := by
  induction fuel generalizing a b with
  | zero => exact le_refl 0
  | succ fuel ih =>
    rw [Varint.encodedLenLoop, Varint.encodedLenLoop]
    have := ih (Nat.div_le_div_right (c := 128) h)
    split_ifs <;> omega

theorem lenBound_mono {a b : ℕ} (h : a ≤ b) (hb : b < 2 ^ 64) : lenBound a ≤ lenBound b := by
  have := encodedLenLoop_mono 9 (Nat.div_le_div_right (c := 128) h)
  rw [lenBound, lenBound, Varint.encodedLen, Varint.encodedLen, toNat_ofNat_len hb,
    toNat_ofNat_len (by omega)]
  omega

theorem bagLen_sublist {xs ys : List (String × OrdValue)} (h : xs.Sublist ys)
    (hb : ys.length < 2 ^ 64) : bagLen xs ≤ bagLen ys := by
  have hentries : entriesLen (xs.map fun e => (e.1, e.2.1)) ≤
      entriesLen (ys.map fun e => (e.1, e.2.1)) := by
    clear hb
    induction h with
    | slnil => exact le_refl _
    | cons e _ ih =>
      rw [List.map_cons, entriesLen]
      omega
    | cons_cons e _ ih =>
      rw [List.map_cons, List.map_cons, entriesLen, entriesLen]
      omega
  have := lenBound_mono h.length_le hb
  rw [bagLen, bagLen]
  omega

theorem project_eq_filter (rec : Record) (names : List String) :
    rec.project names = rec.filter fun name _ => name ∈ names := by
  ext name : 1
  rw [Record.get_project, OrdMap.get_filter]
  by_cases hn : name ∈ names
  · cases rec.get name <;> simp [hn, Option.filter_some]
  · cases rec.get name <;> simp [hn, Option.filter_some]

theorem entries_project (rec : Record) (names : List String) :
    (rec.project names).entries.Sublist rec.entries := by
  rw [project_eq_filter]
  exact List.filter_sublist

theorem extras_project (s : Schema) (rec : Record) (names : List String) :
    (extras s (rec.project names)).Sublist (extras s rec) := by
  rw [extras, extras]
  split
  · exact (entries_project rec names).filter _
  · exact List.Sublist.refl _

theorem variableLen_project (rec : Record) (names : List String) (xs : List VarField) :
    variableLen (rec.project names) xs ≤ variableLen rec xs := by
  induction xs with
  | nil => exact le_refl _
  | cons x xs ih =>
    have hpresent : present (rec.project names) x.field = present rec x.field ∨
        present (rec.project names) x.field = none := by
      rw [present, present, Record.get_project]
      split
      · exact .inl rfl
      · exact .inr rfl
    rw [variableLen, variableLen]
    rcases hpresent with hp | hp
    · rw [hp]
      omega
    · rw [hp]
      dsimp only
      omega

theorem length_le_bagLen (oes : List (String × OrdValue)) : oes.length ≤ bagLen oes := by
  have h := length_le_writeEntries (oes.map fun e => (e.1, e.2.1))
  rw [writeEntries_length, List.length_map] at h
  rw [bagLen]
  omega

/-- With fewer fields a row is no longer. -/
theorem Fits.project {s : Schema} {rec : Record} (h : Fits s rec) (names : List String) :
    Fits s (rec.project names) := by
  have hvar := variableLen_project rec names (varFields 0 s.fields)
  unfold Fits at h ⊢
  refine lt_of_le_of_lt ?_ h
  cases hm : s.mode with
  | dynamic =>
    rw [hm, if_pos rfl] at h
    simp only [rowSize, hm] at h ⊢
    have := bagLen_sublist (entries_project rec names) (by
      have := length_le_bagLen rec.entries
      omega)
    omega
  | fixed => simp only [rowSize, hm, le_refl]
  | declared | strict =>
    rw [hm, if_neg (by decide)] at h
    simp only [rowSize, hm] at h ⊢
    have := bagLen_sublist (extras_project s rec names) (by
      have := length_le_bagLen (extras s rec)
      omega)
    omega

end Adabt.Storage
