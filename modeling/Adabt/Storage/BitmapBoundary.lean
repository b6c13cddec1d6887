import Adabt.Storage.InPlaceEdit
import Adabt.Storage.ZeroRecord

/-! # Dropping a field across a bitmap byte

When the dropped field was alone in its bitmap byte, the edited schema looks for
the rest of every stored row one byte too early. Some accepted record then reads
back wrong or not at all, whatever the field types. -/

set_option autoImplicit false

namespace Adabt.Storage
open Adabt.Core Adabt.Library

section Inversion

variable {c : RecordCodec} {buf bitmap : Bytes} {fixedAt tableAt k : ℕ} {r r' : Record}

theorem readFixedFields_get {xs : List FixedField} {name : String}
    (h : RecordCodec.readFixedFields buf bitmap fixedAt k xs r = .ok r')
    (hn : ∀ x ∈ xs, x.field.name ≠ name) : r'.get name = r.get name := by
  induction xs generalizing k r with
  | nil =>
    rw [← Except.ok.inj h]
  | cons x xs ih =>
    have hxs := fun y hy => hn y (List.mem_cons_of_mem _ hy)
    rw [RecordCodec.readFixedFields] at h
    split at h
    · simp only at h
      split at h
      · cases h
      · obtain ⟨v, -, h⟩ := bind_eq_ok.mp h
        rw [ih h hxs]
        exact OrdMap.get_insert_ne _ _ (Ne.symm (hn x List.mem_cons_self))
    · exact ih h hxs

theorem readVarFields_get {xs : List VarField} {name : String}
    (h : RecordCodec.readVarFields buf bitmap tableAt k xs r = .ok r')
    (hn : ∀ x ∈ xs, x.field.name ≠ name) : r'.get name = r.get name := by
  induction xs generalizing k r with
  | nil =>
    rw [← Except.ok.inj h]
  | cons x xs ih =>
    have hxs := fun y hy => hn y (List.mem_cons_of_mem _ hy)
    rw [RecordCodec.readVarFields] at h
    split at h
    · obtain ⟨⟨v, _⟩, -, h⟩ := bind_eq_ok.mp h
      rw [ih h hxs]
      exact OrdMap.get_insert_ne _ _ (Ne.symm (hn x List.mem_cons_self))
    · exact ih h hxs

/-- What a successful tail read has checked, for a row that announces no bag. -/
theorem readTail_inv {flags : UInt8} (hflags : flags &&& hasOverflow = 0)
    (h : c.readTail buf bitmap flags tableAt r = .ok r') :
    ∃ last, RecordCodec.checkOffsets (RecordCodec.offsetAt buf tableAt 0)
        ((List.range' 1 c.variableWidth.length).map (RecordCodec.offsetAt buf tableAt)) =
          .ok last ∧ last ≤ buf.length ∧
      RecordCodec.readVarFields buf bitmap tableAt 0 c.variableWidth r = .ok r' := by
  rw [RecordCodec.readTail] at h
  obtain ⟨_, -, h⟩ := bind_eq_ok.mp h
  obtain ⟨last, hlast, h⟩ := bind_eq_ok.mp h
  obtain ⟨_, hle, h⟩ := bind_eq_ok.mp h
  obtain ⟨r1, hr1, h⟩ := bind_eq_ok.mp h
  rw [if_neg (by simpa using hflags)] at h
  exact ⟨last, hlast, ensure_eq_ok.mp hle, (Except.ok.inj h) ▸ hr1⟩

/-- What a successful decode has read. -/
theorem decode_inv (hd : c.schema.mode ≠ .dynamic) (h : c.decode buf = .ok r') :
    ∃ header r1, RecordHeader.read buf = .ok header ∧
      RecordCodec.readFixedFields buf (RecordCodec.slice buf headerLen
          (headerLen + bitmapLen c.schema.fields.length))
        (headerLen + bitmapLen c.schema.fields.length) 0 c.fixed ∅ = .ok r1 ∧
      if c.schema.mode = .fixed then r' = r1
      else c.readTail buf (RecordCodec.slice buf headerLen
          (headerLen + bitmapLen c.schema.fields.length)) header.flags
        (headerLen + bitmapLen c.schema.fields.length + c.fixedRegionLen.toNat) r1 = .ok r' := by
  rw [RecordCodec.decode] at h
  obtain ⟨⟨header, r2⟩, hdec, heq⟩ := bind_eq_ok.mp h
  obtain rfl : r2 = r' := Except.ok.inj heq
  clear h heq
  rw [RecordCodec.decodeWithHeader] at hdec
  rename' hdec => h
  obtain ⟨header', hhead, h⟩ := bind_eq_ok.mp h
  rw [if_neg hd] at h
  obtain ⟨_, -, h⟩ := bind_eq_ok.mp h
  obtain ⟨r1, hr1, h⟩ := bind_eq_ok.mp h
  refine ⟨header', r1, hhead, hr1, ?_⟩
  split at h
  · rename_i hm
    rw [if_pos hm]
    exact (Prod.mk.inj (Except.ok.inj h)).2.symm
  · rename_i hm
    obtain ⟨r3, hr3, h⟩ := bind_eq_ok.mp h
    obtain ⟨-, rfl⟩ := Prod.mk.inj (Except.ok.inj h)
    rwa [if_neg hm]

end Inversion

theorem varFields_mem {i : ℕ} {fields : List FieldDef} {y : VarField}
    (h : y ∈ varFields i fields) : y.field ∈ fields := by
  induction fields generalizing i with
  | nil => cases h
  | cons f rest ih =>
    rw [varFields] at h
    split at h
    · exact List.mem_cons_of_mem _ (ih h)
    · rcases List.mem_cons.mp h with rfl | h
      · exact List.mem_cons_self
      · exact List.mem_cons_of_mem _ (ih h)

theorem fixedFields_mem {i : ℕ} {off : UInt32} {fields : List FieldDef} {y : FixedField}
    (h : y ∈ fixedFields i off fields) : y.field ∈ fields := by
  obtain ⟨j, -, hj⟩ := fixedFields_index i off fields y h
  exact List.mem_of_getElem? hj

/-- The first fixed-width field starts the region, and no other field read
from a row shares its name. -/
theorem fixedFields_head {fields : List FieldDef} (i : ℕ) (off : UInt32) {x : FixedField}
    {xs : List FixedField} (h : fixedFields i off fields = x :: xs)
    (hn : (fields.map (·.name)).Nodup) :
    x.offset = off ∧ x.field ∈ fields ∧ x.field.ty.fixedWidth = some x.width ∧
      x.width.toNat ≤ fixedWidths fields ∧ (∀ y ∈ xs, y.field.name ≠ x.field.name) ∧
      ∀ y ∈ varFields i fields, y.field.name ≠ x.field.name := by
  induction fields generalizing i off with
  | nil => cases h
  | cons f rest ih =>
    obtain ⟨hnot, hnodup⟩ := List.nodup_cons.mp hn
    have hfresh : ∀ g ∈ rest, g.name ≠ f.name := fun g hg he =>
      hnot (List.mem_map.mpr ⟨g, hg, he⟩)
    rw [fixedFields] at h
    rw [fixedWidths, varFields]
    cases hw : f.ty.fixedWidth with
    | some w =>
      rw [hw] at h
      obtain ⟨rfl, rfl⟩ := List.cons.inj h
      exact ⟨rfl, List.mem_cons_self, hw, Nat.le_add_right _ _,
        fun y hy => hfresh _ (fixedFields_mem hy), fun y hy => hfresh _ (varFields_mem hy)⟩
    | none =>
      rw [hw] at h
      obtain ⟨hoff, hmem, hwidth, hle, hxs, hvars⟩ := ih (i + 1) off h hnodup
      refine ⟨hoff, List.mem_cons_of_mem _ hmem, hwidth, by omega, hxs, fun y hy => ?_⟩
      rcases List.mem_cons.mp hy with rfl | hy
      · exact fun he => hfresh _ hmem he.symm
      · exact hvars y hy

theorem getElem?_bits (map : Bytes) (i : ℕ) {b : UInt8} (hb : map[i / 8]? = some b) :
    bitGet map i = b.toBitVec.getLsbD (i % 8) := by
  rw [bitGet_eq, hb]
  rfl

/-- The bitmap of a row of zeros whose last field starts a new byte. -/
theorem presenceBits_boundary {s : Schema} {k : ℕ} (hlen : s.fields.length = 8 * k + 1) :
    ∃ left, presenceBits (zeroRecord s.fields) s.fields = left ++ [1] ∧ left.length = k ∧
      ∀ j < 8 * k, bitGet left j = true := by
  set map := presenceBits (zeroRecord s.fields) s.fields with hmap
  have hmlen : map.length = k + 1 := by
    rw [hmap, presenceBits_length, bitmapLen]
    omega
  have hbit : ∀ j, bitGet map j = decide (j < 8 * k + 1) := by
    intro j
    rw [hmap, bitGet_presenceBits]
    by_cases hj : j < s.fields.length
    · rw [List.getElem?_eq_getElem hj, Option.bind_some,
        present_zeroRecord (List.getElem_mem hj)]
      simp [← hlen, hj]
    · rw [List.getElem?_eq_none (by omega)]
      simp [← hlen, hj]
  obtain ⟨b, hb⟩ : ∃ b, map[k]? = some b := ⟨map[k], List.getElem?_eq_getElem (by omega)⟩
  have hone : b = 1 := by
    apply UInt8.toBitVec_inj.mp
    apply BitVec.eq_of_getLsbD_eq
    intro i hi
    have h := getElem?_bits map (8 * k + i)
      (by rwa [show (8 * k + i) / 8 = k by omega])
    rw [hbit, show (8 * k + i) % 8 = i by omega] at h
    rw [← h]
    by_cases h0 : i = 0
    · subst h0; simp
    · simp [h0]
  refine ⟨map.take k, ?_, by rw [List.length_take]; omega, fun j hj => ?_⟩
  · have hdrop : map.drop k = [1] := by
      have hl : (map.drop k).length = 1 := by rw [List.length_drop]; omega
      obtain ⟨a, ha⟩ := List.length_eq_one_iff.mp hl
      have : map[k]? = some a := by
        rw [← List.head?_drop, ha]
        rfl
      rw [ha, ← hone, Option.some.inj (hb.symm.trans this)]
    rw [← hdrop, List.take_append_drop]
  · have := hbit j
    rw [bitGet_eq] at this ⊢
    rw [List.getElem?_take_of_lt (by omega), this]
    simp
    omega

/-- A table entry read one byte early is the low part of its offset, shifted. -/
theorem offsetAt_shifted (A C : Bytes) (offs : List ℕ) {tableAt j o : ℕ}
    (hA : A.length = tableAt + 1) (ho : offs[j]? = some o) :
    RecordCodec.offsetAt (A ++ (writeTable offs ++ C)) tableAt j / 256 = o % 2 ^ 24 := by
  obtain ⟨hj, rfl⟩ := List.getElem?_eq_some_iff.mp ho
  have hlt : tableAt + 4 * j < (A ++ (writeTable offs ++ C)).length := by
    simp only [List.length_append, hA]
    have := writeTable_length offs
    omega
  have hrest : ((A ++ (writeTable offs ++ C)).drop (tableAt + 4 * j + 1)).take 3 =
      leBytes 3 offs[j] := by
    have h4 := drop_writeTable offs C j hj
    rw [List.drop_append, List.drop_of_length_le (by omega), List.nil_append,
      show tableAt + 4 * j + 1 - A.length = 4 * j by omega]
    have : ∀ l : Bytes, l.take 3 = (l.take 4).take 3 := fun l => by rw [List.take_take]; rfl
    rw [this, h4]
    rfl
  rw [RecordCodec.offsetAt, RecordCodec.slice, List.drop_eq_getElem_cons hlt,
    Nat.add_sub_cancel_left, List.take_succ_cons, hrest, ofLeBytes, ofLeBytes_leBytes_mod]
  have := ((A ++ (writeTable offs ++ C))[tableAt + 4 * j]).toNat_lt
  omega

theorem checkOffsets_shifted {rec : Record} {offset : ℕ → ℕ} {last : ℕ} (xs : List VarField)
    (hlen : ∀ x ∈ xs, 1 ≤ (writePresent rec x.field).length ∧
      (writePresent rec x.field).length ≤ 2) (j pos : ℕ)
    (hoff : ∀ i ≤ xs.length, ∃ o, (varOffsets rec xs pos)[i]? = some o ∧
      offset (j + i) / 256 = o % 2 ^ 24)
    (h : RecordCodec.checkOffsets (offset j) ((List.range' (j + 1) xs.length).map offset) =
      .ok last) : pos % 2 ^ 24 + xs.length ≤ last / 256 := by
  obtain ⟨o, ho, hhead⟩ := hoff 0 (Nat.zero_le _)
  rw [varOffsets_head] at ho
  obtain rfl := Option.some.inj ho
  rw [Nat.add_zero] at hhead
  clear ho
  induction xs generalizing j pos with
  | nil =>
    rw [← Except.ok.inj h]
    exact hhead.ge
  | cons x xs ih =>
    obtain ⟨h1, h2⟩ := hlen x List.mem_cons_self
    obtain ⟨o', ho', hnext⟩ := hoff 1 (by simp)
    rw [varOffsets, List.getElem?_cons_succ, varOffsets_head] at ho'
    obtain rfl := Option.some.inj ho'
    rw [List.length_cons, List.range'_succ, List.map_cons, RecordCodec.checkOffsets] at h
    split at h
    · cases h
    · have hrec := ih (fun y hy => hlen y (List.mem_cons_of_mem _ hy)) (j + 1)
        (pos + (writePresent rec x.field).length) (by
          intro i hi
          obtain ⟨o, ho, hi'⟩ := hoff (i + 1) (by rw [List.length_cons]; omega)
          rw [varOffsets, List.getElem?_cons_succ] at ho
          exact ⟨o, ho, by rw [← hi']; congr 2; omega⟩) h hnext
      rw [List.length_cons]
      omega

theorem writeTlv_zero_length {ty : FieldType} (hw : ty.fixedWidth = none) :
    1 ≤ (writeTlv (zeroValue ty).1).length ∧ (writeTlv (zeroValue ty).1).length ≤ 2 := by
  cases ty with
  | str _ | bytes _ | list _ | map | any => simp only [zeroValue]; decide
  | _ => cases hw

theorem writePresent_zero {s : Schema} {f : FieldDef} (hf : f ∈ s.fields)
    (hw : f.ty.fixedWidth = none) :
    1 ≤ (writePresent (zeroRecord s.fields) f).length ∧
      (writePresent (zeroRecord s.fields) f).length ≤ 2 := by
  rw [writePresent, present_zeroRecord hf]
  exact writeTlv_zero_length hw

theorem writeVariable_length_le_of {rec : Record} {xs : List VarField} {n : ℕ}
    (h : ∀ x ∈ xs, (writePresent rec x.field).length ≤ n) :
    (writeVariable rec xs).length ≤ n * xs.length := by
  induction xs with
  | nil => simp [writeVariable]
  | cons x xs ih =>
    have h1 := h x List.mem_cons_self
    have h2 := ih fun y hy => h y (List.mem_cons_of_mem _ hy)
    rw [writeVariable, List.length_append, List.length_cons, Nat.mul_succ]
    omega

theorem variable_of_noFixed {i : ℕ} {off : UInt32} {fields : List FieldDef}
    (h : fixedFields i off fields = []) : ∀ f ∈ fields, f.ty.fixedWidth = none := by
  induction fields generalizing i off with
  | nil => simp
  | cons f rest ih =>
    rw [fixedFields] at h
    cases hw : f.ty.fixedWidth with
    | none =>
      rw [hw] at h
      exact List.forall_mem_cons.mpr ⟨hw, ih h⟩
    | some w =>
      rw [hw] at h
      cases h

theorem varFields_length {i : ℕ} {fields : List FieldDef}
    (h : ∀ f ∈ fields, f.ty.fixedWidth = none) : (varFields i fields).length = fields.length := by
  induction fields generalizing i with
  | nil => rfl
  | cons f rest ih =>
    rw [varFields, h f List.mem_cons_self]
    simp [ih fun g hg => h g (List.mem_cons_of_mem _ hg)]

/-- Two schemas that differ by a dropped last field alone in its bitmap byte. -/
structure DropsBoundary (old new : Schema) (k : ℕ) : Prop where
  mode : new.mode = old.mode
  closed : old.mode = .fixed ∨ old.mode = .strict
  drop : ∃ f, old.fields = new.fields ++ [f] ∧ (old.mode ≠ .fixed → f.ty.fixedWidth = none)
  count : new.fields.length = 8 * k
  pos : 0 < k

namespace DropsBoundary

variable {old new : Schema} {k : ℕ} (hb : DropsBoundary old new k)

include hb

theorem old_length : old.fields.length = 8 * k + 1 := by
  obtain ⟨f, hf, -⟩ := hb.drop
  rw [hf, List.length_append, hb.count, List.length_singleton]

theorem not_dynamic : old.mode ≠ .dynamic := by
  rcases hb.closed with h | h <;> simp [h]

theorem bitmapLen_new : bitmapLen new.fields.length = k := by
  rw [hb.count, bitmapLen]
  omega

/-- The zero row as the edited schema sees it: its bitmap, then a stray one. -/
theorem zeroRow (hfits : Fits old (zeroRecord old.fields)) :
    ∃ left, (RecordCodec.new old).encode (zeroRecord old.fields) =
        .ok ((RecordHeader.new.write ++ left) ++ ([1] ++ (List.replicate (fixedWidths old.fields) 0 ++
          rowTail old (zeroRecord old.fields)))) ∧
      left.length = k ∧ ∀ j < 8 * k, bitGet left j = true := by
  have hready := rowReady hb.not_dynamic (zeroRecord_valid old) (zeroRecord_flat old) hfits
  obtain ⟨region, hregion, -, henc⟩ := encodeWithHeader_row old (zeroRecord old.fields) .new
    hb.not_dynamic hready.writable
  obtain ⟨left, hbits, hlen, hset⟩ := presenceBits_boundary hb.old_length
  rw [writeFixedRegion_zero old 0 0 old.fields (fun _ h => h)] at hregion
  obtain rfl := Except.ok.inj hregion
  refine ⟨left, ?_, hlen, hset⟩
  have hflag : flagged old (zeroRecord old.fields) .new = .new := by
    rw [flagged, extras_of_closed hb.closed]
    rfl
  rw [RecordCodec.encode, henc, row, hflag, hbits]
  simp only [List.append_assoc]

theorem slice_left {left rest : Bytes} (hl : left.length = k) :
    RecordCodec.slice ((RecordHeader.new.write ++ left) ++ rest) headerLen
      (headerLen + bitmapLen new.fields.length) = left := by
  have := slice_middle RecordHeader.new.write left rest (writeHeader_length _)
  rwa [hl, ← hb.bitmapLen_new, ← List.append_assoc] at this

/-- With a fixed field left, the first of them reads back as something else. -/
theorem misread (hfits : Fits old (zeroRecord old.fields)) {x : FixedField} {xs : List FixedField}
    (hx : fixedFields 0 0 new.fields = x :: xs) {bytes : Bytes} {r' : Record}
    (henc : (RecordCodec.new old).encode (zeroRecord old.fields) = .ok bytes)
    (hdec : (RecordCodec.new new).decode bytes = .ok r') :
    x.field ∈ new.fields ∧ ∃ v, r'.get x.field.name = some v ∧ v ≠ zeroValue x.field.ty := by
  obtain ⟨left, henc', hleft, hset⟩ := hb.zeroRow hfits
  obtain rfl := Except.ok.inj (henc.symm.trans henc')
  obtain ⟨hoff, hmem, hwidth, hle, hxs, hvars⟩ := fixedFields_head 0 0 hx new.names_nodup
  obtain ⟨hpos, v, hread, hne⟩ := misread_zero hwidth (new.fieldsValid.2 _ hmem).capacity
  refine ⟨hmem, v, ?_, hne⟩
  obtain ⟨header, r1, hhead, hfixed, hrest⟩ := decode_inv
    (show (RecordCodec.new new).schema.mode ≠ .dynamic from hb.mode ▸ hb.not_dynamic) hdec
  have hheader : header = .new := by
    rw [List.append_assoc, readHeader_write,
      if_pos (show RecordHeader.new.version = formatVersion from rfl)] at hhead
    exact (Except.ok.inj hhead).symm
  have hwidths : x.width.toNat ≤ fixedWidths old.fields := by
    obtain ⟨f, hf, -⟩ := hb.drop
    rw [hf, fixedWidths_append]
    omega
  have hbit : bitGet left x.index = true := by
    obtain ⟨j, hj, hget⟩ := fixedFields_index 0 0 new.fields x (by rw [hx]; exact List.mem_cons_self)
    have hlt := (List.getElem?_eq_some_iff.mp hget).1
    rw [hb.count] at hlt
    exact hset x.index (by omega)
  -- The stray one and the first bytes of the zero region fill the field's slot.
  have hslot : ∀ tail : Bytes, RecordCodec.slice ((RecordHeader.new.write ++ left) ++
      ([1] ++ (List.replicate (fixedWidths old.fields) 0 ++ tail))) (headerLen + k)
      (headerLen + k + x.width.toNat) = 1 :: List.replicate (x.width.toNat - 1) 0 := by
    intro tail
    obtain ⟨m, hm⟩ : ∃ m, fixedWidths old.fields = x.width.toNat - 1 + m :=
      ⟨fixedWidths old.fields - (x.width.toNat - 1), by omega⟩
    have hA : (RecordHeader.new.write ++ left).length = headerLen + k := by simp [hleft]
    have := slice_middle _ (1 :: List.replicate (x.width.toNat - 1) (0 : UInt8))
      (List.replicate m 0 ++ tail) hA
    rw [List.length_cons, List.length_replicate, Nat.sub_add_cancel hpos] at this
    have hsplit : List.replicate (fixedWidths old.fields) (0 : UInt8) ++ tail =
        List.replicate (x.width.toNat - 1) 0 ++ (List.replicate m 0 ++ tail) := by
      rw [hm, ← List.replicate_append_replicate, List.append_assoc]
    rw [hsplit]
    exact this
  have hcodec : (RecordCodec.new new).fixed = x :: xs := hx
  have hfields : (RecordCodec.new new).schema.fields = new.fields := rfl
  rw [hfields, hcodec, hb.slice_left hleft, hb.bitmapLen_new, RecordCodec.readFixedFields,
    if_pos hbit, hoff] at hfixed
  simp only [UInt32.toNat_zero, Nat.add_zero, hslot, hread] at hfixed
  split at hfixed
  · cases hfixed
  · have hr1 : r1.get x.field.name = some v := by
      rw [readFixedFields_get hfixed hxs]
      exact OrdMap.get_insert_self _ _ _
    split at hrest
    · rw [hrest, hr1]
    · obtain ⟨last, -, -, hvar⟩ := readTail_inv (by rw [hheader]; rfl) hrest
      rw [readVarFields_get hvar hvars, hr1]

/-- With no fixed field left, the shifted offset table is refused. -/
theorem refused (hfits : Fits old (zeroRecord old.fields))
    (hx : fixedFields 0 0 new.fields = []) {bytes : Bytes} {r' : Record}
    (henc : (RecordCodec.new old).encode (zeroRecord old.fields) = .ok bytes)
    (hdec : (RecordCodec.new new).decode bytes = .ok r') : False := by
  obtain ⟨left, henc', hleft, -⟩ := hb.zeroRow hfits
  obtain rfl := Except.ok.inj (henc.symm.trans henc')
  obtain ⟨f, hf, hlast⟩ := hb.drop
  have hnew := variable_of_noFixed hx
  have hmode : old.mode ≠ .fixed := by
    intro hm
    obtain ⟨g, hg⟩ := List.exists_mem_of_ne_nil new.fields
      (new.fields_ne_nil (hb.mode ▸ hb.not_dynamic))
    exact (new.fieldsValid.2 g hg).width (hb.mode.trans hm) (hnew g hg)
  have hold : ∀ g ∈ old.fields, g.ty.fixedWidth = none := by
    intro g hg
    rw [hf] at hg
    rcases List.mem_append.mp hg with hg | hg
    · exact hnew g hg
    · rw [List.mem_singleton.mp hg]
      exact hlast hmode
  have hxs : (varFields 0 new.fields).length = 8 * k := (varFields_length hnew).trans hb.count
  have hys : (varFields 0 old.fields).length = 8 * k + 1 :=
    (varFields_length hold).trans hb.old_length
  have hshort : ∀ y ∈ varFields 0 old.fields,
      1 ≤ (writePresent (zeroRecord old.fields) y.field).length ∧
        (writePresent (zeroRecord old.fields) y.field).length ≤ 2 :=
    fun y hy => writePresent_zero (varFields_mem hy) (hold _ (varFields_mem hy))
  have hvars : varFields 0 old.fields = varFields 0 new.fields ++
      varFields new.fields.length [f] := by rw [hf, varFields_append, Nat.zero_add]
  have hwidths : fixedWidths old.fields = 0 := fixedWidths_of_variable hold
  have hregionLen : (RecordCodec.new new).fixedRegionLen.toNat = 0 := by
    have := regionLen_toNat 0 new.fields (by rw [fixedWidths_of_variable hnew]; decide)
    rwa [fixedWidths_of_variable hnew] at this
  have hempty : extras old (zeroRecord old.fields) = [] := extras_of_closed hb.closed _
  obtain ⟨header, r1, hhead, -, hrest⟩ := decode_inv
    (show (RecordCodec.new new).schema.mode ≠ .dynamic from hb.mode ▸ hb.not_dynamic) hdec
  rw [if_neg (show (RecordCodec.new new).schema.mode ≠ .fixed from hb.mode ▸ hmode)] at hrest
  have hheader : header = .new := by
    rw [List.append_assoc, readHeader_write,
      if_pos (show RecordHeader.new.version = formatVersion from rfl)] at hhead
    exact (Except.ok.inj hhead).symm
  obtain ⟨last, hcheck, hle, -⟩ := readTail_inv (by rw [hheader]; rfl) hrest
  have hcodec : (RecordCodec.new new).variableWidth = varFields 0 new.fields := rfl
  have hfields : (RecordCodec.new new).schema.fields = new.fields := rfl
  rw [hfields, hcodec, hb.bitmapLen_new, hregionLen, Nat.add_zero] at hcheck
  set rec := zeroRecord old.fields with hrec
  have hA : ((RecordHeader.new.write ++ left) ++ [1]).length = headerLen + k + 1 := by
    simp only [List.length_append, writeHeader_length, hleft, List.length_singleton]
  have hbuf : (RecordHeader.new.write ++ left) ++ ([1] ++ (List.replicate (fixedWidths old.fields) 0
      ++ rowTail old rec)) = ((RecordHeader.new.write ++ left) ++ [1]) ++
        (writeTable (varOffsets rec (varFields 0 old.fields) (dataAt old)) ++
          writeVariable rec (varFields 0 old.fields)) := by
    have hbag : bagBytes old rec = [] := by rw [bagBytes, hempty]; rfl
    rw [hwidths, rowTail, if_neg hmode, hbag]
    simp only [List.replicate_zero, List.nil_append, List.append_nil, List.append_assoc]
  rw [hbuf] at hcheck hle
  have hshifted := checkOffsets_shifted (varFields 0 new.fields)
    (fun y hy => hshort y (by rw [hvars]; exact List.mem_append_left _ hy)) 0 (dataAt old) (by
      intro i hi
      have hlt : i < (varOffsets rec (varFields 0 old.fields) (dataAt old)).length := by
        rw [varOffsets_length]
        omega
      have ho := List.getElem?_eq_getElem hlt
      refine ⟨_, ?_, offsetAt_shifted _ _ _ hA (by rw [Nat.zero_add]; exact ho)⟩
      rw [← ho, hvars, varOffsets_append _ _ _ _ _ hi]) hcheck
  have hdata := writeVariable_length_le_of fun y hy => (hshort y hy).2
  have hlen : (((RecordHeader.new.write ++ left) ++ [1]) ++
      (writeTable (varOffsets rec (varFields 0 old.fields) (dataAt old)) ++
        writeVariable rec (varFields 0 old.fields))).length =
      headerLen + k + 1 + (4 * (8 * k + 2) + (writeVariable rec (varFields 0 old.fields)).length) := by
    simp only [List.length_append] at hA ⊢
    rw [hA, writeTable_length, varOffsets_length, hys]
  have hpos := hb.pos
  have hten : headerLen = 10 := rfl
  rw [hlen] at hle
  rw [hys] at hdata
  omega

end DropsBoundary

theorem decode_zero {s : Schema} (hd : s.mode ≠ .dynamic) (hfits : Fits s (zeroRecord s.fields))
    {bytes : Bytes} {r : Record} (henc : (RecordCodec.new s).encode (zeroRecord s.fields) = .ok bytes)
    (hdec : (RecordCodec.new s).decode bytes = .ok r) {f : FieldDef} (hf : f ∈ s.fields) :
    r.get f.name = some (zeroValue f.ty) := by
  obtain ⟨bytes', henc', hgood, -⟩ := decode_encode (h := .new) (zeroRecord_valid s)
    (zeroRecord_noNull s) (zeroRecord_flat s) hfits
  obtain rfl : bytes' = bytes := Except.ok.inj (henc'.symm.trans henc)
  have h := decode_of_header (hgood ⟨rfl, fun _ hflag => absurd rfl hflag⟩)
  rw [Except.ok.inj (hdec.symm.trans h), asStored, if_neg hd, OrdMap.get_mapVal,
    get_zeroRecord s.names_nodup hf, s.field_of_mem hf]
  exact congrArg some (stored_zeroValue f.ty)

/-- Editing in place preserves every accepted record exactly when the presence
bitmap keeps its length. -/
theorem editable_readsAlike_iff (old new : Schema) (h : schemaEditableInPlace old new)
    (hrow : Fits old (zeroRecord old.fields)) :
    (∀ rec, old.validateRecord rec = .ok () → ¬ rec.HasNull → rec.NestedAtMost maxDepth →
        Fits old rec → ReadsAlike old new rec) ↔
      bitmapLen new.fields.length = bitmapLen old.fields.length := by
  constructor
  · intro hall
    by_contra hb
    obtain ⟨hm, ⟨-, f, -, -, hsame⟩ | ⟨f, hf, hmode⟩⟩ := editable_cases h
    · exact hb hsame
    · have hlen : old.fields.length = new.fields.length + 1 := by rw [hf]; simp
      have hnew : new.fields ≠ [] := new.fields_ne_nil (by
        rcases closed_of_editable h with hc | hc <;> simp [hm, hc])
      have hpos := List.length_pos_iff.mpr hnew
      have hk : new.fields.length = 8 * (new.fields.length / 8) := by
        rw [hlen, bitmapLen, bitmapLen] at hb
        omega
      have hbound : DropsBoundary old new (new.fields.length / 8) :=
        ⟨hm, closed_of_editable h, ⟨f, hf, fun hne => (hmode.resolve_left hne).2⟩, hk, by omega⟩
      obtain ⟨bytes, r, r', henc, hold, hdec, hsame⟩ := hall _ (zeroRecord_valid old)
        (zeroRecord_noNull old) (zeroRecord_flat old) hrow
      cases hx : fixedFields 0 0 new.fields with
      | nil => exact hbound.refused hrow hx henc hdec
      | cons x xs =>
        obtain ⟨hmem, v, hv, hne⟩ := hbound.misread hrow hx henc hdec
        have hold' : x.field ∈ old.fields := by rw [hf]; exact List.mem_append_left _ hmem
        have hr := hsame x.field hmem
        rw [hv, old.field_of_mem hold', decode_zero hbound.not_dynamic hrow henc hold hold'] at hr
        exact hne (Option.some.inj hr)
  · intro hb rec hok hnull hnest hfits
    exact editable_readsAlike h hb hok hnull hnest hfits

def flag (name : String) : FieldDef := ⟨name, .bool, true⟩

def nineFlags : Schema :=
  ⟨.fixed, ["a", "b", "c", "d", "e", "f", "g", "h", "i"].map flag, rfl⟩

def eightFlags : Schema := ⟨.fixed, ["a", "b", "c", "d", "e", "f", "g", "h"].map flag, rfl⟩

def sevenFlags : Schema := ⟨.fixed, ["a", "b", "c", "d", "e", "f", "g"].map flag, rfl⟩

/-- Dropping the eighth of eight flags keeps a row readable. -/
theorem eight_to_seven_readsAlike :
    ReadsAlike eightFlags sevenFlags (zeroRecord eightFlags.fields) :=
  (editable_readsAlike_iff eightFlags sevenFlags (by decide) (by decide)).mpr (by decide) _
    (by decide) (by decide) (by decide) (by decide)

def nineZeros : Record := zeroRecord nineFlags.fields

/-- Dropping the ninth of nine flags turns the first one of a stored row on. -/
theorem nine_to_eight_misreads : schemaEditableInPlace nineFlags eightFlags ∧
    nineFlags.validateRecord nineZeros = .ok () ∧ ¬ nineZeros.HasNull ∧
    ∃ bytes r r', (RecordCodec.new nineFlags).encode nineZeros = .ok bytes ∧
      (RecordCodec.new nineFlags).decode bytes = .ok r ∧
      (RecordCodec.new eightFlags).decode bytes = .ok r' ∧
      r.get "a" = some ⟨.bool false, trivial⟩ ∧ r'.get "a" = some ⟨.bool true, trivial⟩ := by
  refine ⟨by decide, by decide, by decide, [1, 0, 0, 0, 0, 0, 0, 0, 0, 0, 255, 1, 0, 0, 0, 0, 0, 0,
    0, 0, 0], _, _, by decide, rfl, rfl, rfl, rfl⟩

end Adabt.Storage
