import Adabt.Storage.Catalog

/-! # A schema reads back

What `encode_schema` writes, `decode_schema` turns into the same schema, unless a
type nests its lists deeper than the reader follows. Nothing on the way in keeps such
a type out. -/

set_option autoImplicit false

namespace Adabt.Storage
open Adabt.Core Adabt.Library

/-- How many lists a type is inside. -/
def listDepth : FieldType → ℕ
  | .list inner => listDepth inner + 1
  | _ => 0

namespace SchemaReader

theorem varint_append (v : UInt64) (rest : Bytes) :
    varint (Varint.writeU64 v ++ rest) = .ok (v, rest) := by
  rw [varint, Varint.readU64_writeU64, ok_bind]
  simp [pure, Except.pure]

theorem bytes_append {n : ℕ} (raw rest : Bytes) (h : raw.length = n) :
    bytes n (raw ++ rest) = .ok (raw, rest) := by
  subst h
  rw [bytes, if_pos (by simp), List.take_left, List.drop_left]

theorem optU32_append (m : Option UInt32) (rest : Bytes) :
    optU32 (writeOptU32 m ++ rest) = .ok (m, rest) := by
  cases m with
  | none => rfl
  | some n =>
    rw [writeOptU32, List.cons_append, optU32, u8, ok_bind]
    simp [varint_append, pure, Except.pure]

theorem ty_append (t : FieldType) {fuel : ℕ} (rest : Bytes) (h : listDepth t < fuel) :
    ty fuel (writeType t ++ rest) = .ok (t, rest) := by
  induction t generalizing fuel with
  | list inner ih =>
    obtain ⟨fuel, rfl⟩ := Nat.exists_eq_succ_of_ne_zero (Nat.ne_zero_of_lt h)
    rw [listDepth] at h
    have hinner := ih (show listDepth inner < fuel by omega)
    rw [writeType, List.cons_append, ty, u8, ok_bind]
    simp [hinner, pure, Except.pure]
  | _ =>
    obtain ⟨fuel, rfl⟩ := Nat.exists_eq_succ_of_ne_zero (Nat.ne_zero_of_lt h)
    simp [writeType, ty, u8, varint_append, optU32_append, pure, Except.pure]

theorem length_writeField (f : FieldDef) : f.name.utf8ByteSize < (writeField f).length := by
  rw [writeField, List.length_append, List.length_append, utf8_length, List.length_cons]
  omega

theorem length_le_writeFields (fs : List FieldDef) :
    fs.length ≤ (fs.flatMap writeField).length := by
  induction fs with
  | nil => simp
  | cons f fs ih =>
    have hf := length_writeField f
    rw [List.flatMap_cons, List.length_append, List.length_cons]
    omega

theorem field_append {f : FieldDef} (rest : Bytes) (hdepth : listDepth f.ty ≤ maxTypeDepth)
    (hsize : (writeField f).length < 2 ^ 64) : field (writeField f ++ rest) = .ok (f, rest) := by
  have hname := length_writeField f
  have hlen : (UInt64.ofNat f.name.utf8ByteSize).toNat = f.name.utf8ByteSize := by
    rw [UInt64.toNat_ofNat']
    exact Nat.mod_eq_of_lt (by omega)
  have hflag : (if f.nullable then (1 : UInt8) else 0) ≠ 0 ↔ f.nullable = true := by
    cases f.nullable <;> decide
  rw [writeField, List.append_assoc, List.append_assoc, field, varint_append, ok_bind]
  simp only [hlen, bytes_append _ _ (utf8_length f.name), ok_bind, decodeUtf8_utf8,
    List.cons_append, u8, ty_append f.ty rest (show listDepth f.ty < maxTypeDepth + 1 by omega),
    hflag, Bool.decide_eq_true]
  rfl

theorem fields_append {fs : List FieldDef} (hdepth : ∀ f ∈ fs, listDepth f.ty ≤ maxTypeDepth)
    (hsize : (fs.flatMap writeField).length < 2 ^ 64) :
    fields fs.length (fs.flatMap writeField) = .ok fs := by
  induction fs with
  | nil => rfl
  | cons f fs ih =>
    rw [List.flatMap_cons, List.length_append] at hsize
    have hrest := ih (fun g hg => hdepth g (List.mem_cons_of_mem _ hg)) (by omega)
    rw [List.flatMap_cons, List.length_cons, fields,
      field_append _ (hdepth f List.mem_cons_self) (by omega), ok_bind]
    simp only [hrest, ok_bind]
    rfl

theorem mode_modeTag (m : SchemaMode) : mode (modeTag m) = .ok m := by
  cases m <;> rfl

end SchemaReader

theorem Schema.new_self (s : Schema) : Schema.new s.mode s.fields = .ok s := by
  obtain ⟨mode, fields, valid⟩ := s
  unfold Schema.new
  split
  · rfl
  · next e he => rw [valid] at he; cases he

/-- A schema comes back exactly as it was. -/
theorem decodeSchema_encodeSchema {s : Schema}
    (hdepth : ∀ f ∈ s.fields, listDepth f.ty ≤ maxTypeDepth)
    (hsize : (encodeSchema s).length < 2 ^ 64) : decodeSchema (encodeSchema s) = .ok s := by
  have hcount := SchemaReader.length_le_writeFields s.fields
  have hbytes : (encodeSchema s).length =
      (Varint.writeU64 (UInt64.ofNat s.fields.length)).length +
        (s.fields.flatMap writeField).length + 1 := by
    rw [encodeSchema, List.length_cons, List.length_append]
  have hlen : (UInt64.ofNat s.fields.length).toNat = s.fields.length := by
    rw [UInt64.toNat_ofNat']
    exact Nat.mod_eq_of_lt (by omega)
  have hfits : s.fields.length ≤ (encodeSchema s).length := by omega
  rw [decodeSchema]
  conv_lhs => rw [encodeSchema]
  simp only [SchemaReader.u8, ok_bind, SchemaReader.mode_modeTag, SchemaReader.varint_append, hlen]
  rw [← encodeSchema, ensure, if_pos hfits, ok_bind,
    SchemaReader.fields_append hdepth (by omega), ok_bind]
  split_ifs with hdyn
  · exact congrArg Except.ok (Schema.ext hdyn.1.symm hdyn.2.symm)
  · rw [Schema.new_self]
    rfl

/-! ## Types nested too deep -/

namespace SchemaReader

def nestedTooDeeply : Error := .corruption "schema type nested too deeply"

theorem ty_deep (t : FieldType) {fuel : ℕ} (rest : Bytes) (h : fuel ≤ listDepth t) :
    ty fuel (writeType t ++ rest) = .error nestedTooDeeply := by
  induction t generalizing fuel with
  | list inner ih =>
    cases fuel with
    | zero => rfl
    | succ fuel =>
      rw [listDepth] at h
      have hinner := ih (show fuel ≤ listDepth inner by omega)
      rw [writeType, List.cons_append, ty, u8, ok_bind]
      simp [hinner]
  | _ =>
    obtain rfl : fuel = 0 := Nat.le_zero.mp h
    rfl

theorem field_deep {f : FieldDef} (rest : Bytes) (hdepth : maxTypeDepth < listDepth f.ty)
    (hsize : (writeField f).length < 2 ^ 64) :
    field (writeField f ++ rest) = .error nestedTooDeeply := by
  have hname := length_writeField f
  have hlen : (UInt64.ofNat f.name.utf8ByteSize).toNat = f.name.utf8ByteSize :=
    UInt64.toNat_ofNat_of_lt' (lt_trans hname hsize)
  rw [writeField, List.append_assoc, List.append_assoc, field, varint_append, ok_bind]
  simp only [hlen, bytes_append _ _ (utf8_length f.name), ok_bind, decodeUtf8_utf8,
    List.cons_append, u8, ty_deep f.ty rest (show maxTypeDepth + 1 ≤ listDepth f.ty by omega),
    error_bind]

theorem fields_deep {fs : List FieldDef} (hdepth : ∃ f ∈ fs, maxTypeDepth < listDepth f.ty)
    (hsize : (fs.flatMap writeField).length < 2 ^ 64) :
    fields fs.length (fs.flatMap writeField) = .error nestedTooDeeply := by
  induction fs with
  | nil =>
    obtain ⟨f, hf, -⟩ := hdepth
    cases hf
  | cons f fs ih =>
    rw [List.flatMap_cons, List.length_append] at hsize
    rw [List.flatMap_cons, List.length_cons, fields]
    by_cases hf : listDepth f.ty ≤ maxTypeDepth
    · obtain ⟨g, hg, hdeep⟩ := hdepth
      have hrest : g ∈ fs := by
        rcases List.mem_cons.mp hg with rfl | hg
        · omega
        · exact hg
      rw [field_append _ hf (by omega), ok_bind]
      simp only [ih ⟨g, hrest, hdeep⟩ (by omega), error_bind]
    · rw [field_deep _ (by omega) (by omega), error_bind]

end SchemaReader

theorem length_encodeSchema (s : Schema) : s.fields.length ≤ (encodeSchema s).length ∧
    (s.fields.flatMap writeField).length ≤ (encodeSchema s).length := by
  have hcount := SchemaReader.length_le_writeFields s.fields
  rw [encodeSchema, List.length_cons, List.length_append]
  omega

theorem decodeSchema_deep {s : Schema} (hdepth : ∃ f ∈ s.fields, maxTypeDepth < listDepth f.ty)
    (hsize : (encodeSchema s).length < 2 ^ 64) :
    decodeSchema (encodeSchema s) = .error SchemaReader.nestedTooDeeply := by
  obtain ⟨hfits, hbytes⟩ := length_encodeSchema s
  have hlen : (UInt64.ofNat s.fields.length).toNat = s.fields.length :=
    UInt64.toNat_ofNat_of_lt' (lt_of_le_of_lt hfits hsize)
  rw [decodeSchema]
  conv_lhs => rw [encodeSchema]
  simp only [SchemaReader.u8, ok_bind, SchemaReader.mode_modeTag, SchemaReader.varint_append, hlen]
  rw [← encodeSchema, ensure, if_pos hfits, ok_bind, SchemaReader.fields_deep hdepth (by omega),
    error_bind]

/-! ## One schema for each encoding -/

/-- Where a type ends is settled by the type itself. -/
theorem writeType_append_inj {t t' : FieldType} {rest rest' : Bytes}
    (h : writeType t ++ rest = writeType t' ++ rest') : t = t' ∧ rest = rest' := by
  have hleft := SchemaReader.ty_append t rest (show listDepth t < listDepth t + listDepth t' + 1 by omega)
  have hright := SchemaReader.ty_append t' rest'
    (show listDepth t' < listDepth t + listDepth t' + 1 by omega)
  rw [h, hright] at hleft
  obtain ⟨ht, hrest⟩ := Prod.mk.inj (Except.ok.inj hleft)
  exact ⟨ht.symm, hrest.symm⟩

theorem writeField_append_inj {f g : FieldDef} {rest rest' : Bytes}
    (h : writeField f ++ rest = writeField g ++ rest') (hf : (writeField f).length < 2 ^ 64)
    (hg : (writeField g).length < 2 ^ 64) : f = g ∧ rest = rest' := by
  have hnameF := SchemaReader.length_writeField f
  have hnameG := SchemaReader.length_writeField g
  have hvarint := congrArg SchemaReader.varint h
  simp only [writeField, List.append_assoc, List.cons_append, SchemaReader.varint_append,
    Except.ok.injEq, Prod.mk.injEq] at hvarint
  obtain ⟨hcount, hbody⟩ := hvarint
  have hlen : f.name.utf8ByteSize = g.name.utf8ByteSize := by
    have hnat := congrArg UInt64.toNat hcount
    rwa [UInt64.toNat_ofNat_of_lt' (lt_trans hnameF hf),
      UInt64.toNat_ofNat_of_lt' (lt_trans hnameG hg)] at hnat
  obtain ⟨hname, htail⟩ := List.append_inj hbody (by rw [utf8_length, utf8_length, hlen])
  obtain ⟨hflag, htype⟩ := List.cons_eq_cons.mp htail
  obtain ⟨hty, hrest⟩ := writeType_append_inj htype
  have hsame : f.name = g.name := by
    have hdecoded := congrArg decodeUtf8 hname
    rwa [decodeUtf8_utf8, decodeUtf8_utf8, Option.some.injEq] at hdecoded
  have hnullable : f.nullable = g.nullable := by
    revert hflag
    cases f.nullable <;> cases g.nullable <;> decide
  obtain ⟨name, ty, nullable⟩ := f
  obtain ⟨name', ty', nullable'⟩ := g
  cases hsame
  cases hty
  cases hnullable
  exact ⟨rfl, hrest⟩

theorem writeFields_inj {fs gs : List FieldDef} (hcount : fs.length = gs.length)
    (h : fs.flatMap writeField = gs.flatMap writeField)
    (hsize : (fs.flatMap writeField).length < 2 ^ 64) : fs = gs := by
  induction fs generalizing gs with
  | nil => exact (List.eq_nil_of_length_eq_zero hcount.symm).symm
  | cons f fs ih =>
    cases gs with
    | nil => cases hcount
    | cons g gs =>
      have hsizeG := h ▸ hsize
      rw [List.flatMap_cons, List.length_append] at hsize hsizeG
      rw [List.flatMap_cons, List.flatMap_cons] at h
      obtain ⟨rfl, hrest⟩ := writeField_append_inj h (by omega) (by omega)
      rw [ih (Nat.succ.inj hcount) hrest (by omega)]

theorem encodeSchema_inj {s t : Schema} (h : encodeSchema s = encodeSchema t)
    (hsize : (encodeSchema s).length < 2 ^ 64) : s = t := by
  obtain ⟨hcountS, hbytesS⟩ := length_encodeSchema s
  obtain ⟨hcountT, -⟩ := length_encodeSchema t
  rw [← h] at hcountT
  have hparts := h
  rw [encodeSchema, encodeSchema, List.cons_eq_cons] at hparts
  obtain ⟨htag, hrest⟩ := hparts
  have hmode : s.mode = t.mode := by
    have hread := congrArg SchemaReader.mode htag
    rw [SchemaReader.mode_modeTag, SchemaReader.mode_modeTag] at hread
    exact Except.ok.inj hread
  have hvarint := congrArg SchemaReader.varint hrest
  rw [SchemaReader.varint_append, SchemaReader.varint_append, Except.ok.injEq, Prod.mk.injEq] at hvarint
  obtain ⟨hcount, hfields⟩ := hvarint
  have hlen : s.fields.length = t.fields.length := by
    have hnat := congrArg UInt64.toNat hcount
    rwa [UInt64.toNat_ofNat_of_lt' (lt_of_le_of_lt hcountS hsize),
      UInt64.toNat_ofNat_of_lt' (lt_of_le_of_lt hcountT hsize)] at hnat
  exact Schema.ext hmode (writeFields_inj hlen hfields (lt_of_le_of_lt hbytesS hsize))

/-- Lists of lists, so many deep. -/
def nestedList : ℕ → FieldType
  | 0 => .i64
  | depth + 1 => .list (nestedList depth)

def shallowSchema : Schema := ⟨.declared, [⟨"a", nestedList 32, true⟩], rfl⟩

def deepSchema : Schema := ⟨.declared, [⟨"a", nestedList 33, true⟩], rfl⟩

end Adabt.Storage
