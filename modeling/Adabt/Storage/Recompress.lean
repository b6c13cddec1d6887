import Adabt.Storage.RowDepth
import Adabt.Storage.Contents

/-! # Storing a stored record again

A record read back is encoded as the one it was stored for, so re-encoding what is
stored, as a change of compression does, changes no record. -/

set_option autoImplicit false

namespace Adabt.Storage
open Adabt.Core Adabt.Library

/-- A row that comes back from its encoding. -/
structure Kept (s : Schema) (row : Record) : Prop where
  valid : s.validateRecord row = .ok ()
  noNull : ¬ row.HasNull
  nested : row.NestedAtMost maxDepth
  unsigned : NoWideUnsigned s row

theorem decode_kept {s : Schema} {row : Record} {bytes : Bytes} (hk : Kept s row)
    (henc : (RecordCodec.new s).encode row = .ok bytes) (hlen : bytes.length ≤ maxEntry) :
    (RecordCodec.new s).decode bytes = .ok (asStored s row) := by
  have hfits : Fits s row :=
    fits_of_encode (writable_of_valid hk.valid) henc (by unfold maxEntry at hlen; omega)
  obtain ⟨bytes', henc', hdec, -⟩ :=
    decode_encode (h := .new) hk.valid hk.noNull hk.nested hfits
  obtain rfl : bytes' = bytes := Except.ok.inj (henc'.symm.trans henc)
  have hheader : HeaderFits s row .new := ⟨rfl, fun _ hflag => absurd rfl hflag⟩
  rw [RecordCodec.decode, hdec hheader]
  rfl

/-! ## What is written twice alike -/

theorem rescale_self (units : BitVec 128) (scale : UInt8) :
    rescale units scale scale = some units := by
  rw [rescale, if_pos (UInt8.le_refl scale), Nat.sub_self]
  exact (congrArg checkedI128 (Int.mul_one _)).trans (checkedI128_self units)

theorem writeFixedSlot_stored (ty : FieldType) (v : OrdValue) (w : UInt32) :
    writeFixedSlot ty (stored ty v).1 w = writeFixedSlot ty v.1 w := by
  cases ty with
  | decimal scale =>
    unfold writeFixedSlot
    rw [stored_decimal]
    dsimp only
    rw [slotDecimal, rescale_self, Option.getD_some]
  | _ => rfl

theorem stored_isNull {ty : FieldType} {v : OrdValue} (hv : v.1.isNull = false) :
    (stored ty v).1.isNull = false := by
  cases ty with
  | bool | i64 | u64 | timestamp | decimal _ | f64 => rfl
  | _ => exact hv

section Twice

variable {s : Schema} {row : Record}

/-- A field holds what it stored. -/
theorem present_asStored (hd : s.mode ≠ .dynamic) (hnull : ¬ row.HasNull) {f : FieldDef}
    (hf : f ∈ s.fields) : present (asStored s row) f = (present row f).map (stored f.ty) := by
  rw [present_of_noNull hnull, present, asStored, if_neg hd, OrdMap.get_mapVal, s.field_of_mem hf]
  cases hv : row.get f.name with
  | none => rfl
  | some v =>
    have hnot : (stored f.ty v).1.isNull = false :=
      stored_isNull (Record.not_null_of_get hnull hv)
    rw [Option.map_some, Option.filter_some, hnot]
    rfl

theorem writeSlot_asStored (hd : s.mode ≠ .dynamic) (hnull : ¬ row.HasNull) {f : FieldDef}
    (hf : f ∈ s.fields) (w : UInt32) : writeSlot (asStored s row) f w = writeSlot row f w := by
  unfold writeSlot
  rw [present_asStored hd hnull hf]
  cases present row f with
  | none => rfl
  | some v => exact writeFixedSlot_stored f.ty v w

theorem writePresent_asStored (hd : s.mode ≠ .dynamic) (hnull : ¬ row.HasNull) {f : FieldDef}
    (hf : f ∈ s.fields) (hvar : f.ty.fixedWidth = none) :
    writePresent (asStored s row) f = writePresent row f := by
  unfold writePresent
  rw [present_asStored hd hnull hf]
  cases present row f with
  | none => rfl
  | some v =>
    dsimp only [Option.map_some]
    rw [stored_of_variable hvar]

theorem writeFixedRegion_asStored (hd : s.mode ≠ .dynamic) (hnull : ¬ row.HasNull)
    {fields : List FieldDef} (hsub : ∀ f ∈ fields, f ∈ s.fields) (i : ℕ) (off : UInt32) :
    writeFixedRegion (asStored s row) (fixedFields i off fields) =
      writeFixedRegion row (fixedFields i off fields) := by
  induction fields generalizing i off with
  | nil => rfl
  | cons f rest ih =>
    have hrest := ih fun g hg => hsub g (List.mem_cons_of_mem _ hg)
    rw [fixedFields]
    split
    · rw [writeFixedRegion, writeFixedRegion, hrest,
        writeSlot_asStored hd hnull (hsub f List.mem_cons_self)]
    · exact hrest _ _

theorem variable_asStored (hd : s.mode ≠ .dynamic) (hnull : ¬ row.HasNull)
    {fields : List FieldDef} (hsub : ∀ f ∈ fields, f ∈ s.fields) (i : ℕ) :
    writeVariable (asStored s row) (varFields i fields) = writeVariable row (varFields i fields) ∧
      ∀ pos, varOffsets (asStored s row) (varFields i fields) pos =
        varOffsets row (varFields i fields) pos := by
  induction fields generalizing i with
  | nil => exact ⟨rfl, fun _ => rfl⟩
  | cons f rest ih =>
    have hrest := ih (fun g hg => hsub g (List.mem_cons_of_mem _ hg)) (i + 1)
    rw [varFields]
    split
    · exact hrest
    · rename_i hvar
      have hf := writePresent_asStored hd hnull (hsub f List.mem_cons_self) hvar
      refine ⟨?_, fun pos => ?_⟩
      · rw [writeVariable, writeVariable, hrest.1, hf]
      · rw [varOffsets, varOffsets, hrest.2, hf]

theorem setBits_asStored (hd : s.mode ≠ .dynamic) (hnull : ¬ row.HasNull)
    {fields : List FieldDef} (hsub : ∀ f ∈ fields, f ∈ s.fields) (i : ℕ) (map : Bytes) :
    setBits (asStored s row) i fields map = setBits row i fields map := by
  induction fields generalizing i map with
  | nil => rfl
  | cons f rest ih =>
    rw [setBits, setBits, ih fun g hg => hsub g (List.mem_cons_of_mem _ hg),
      present_asStored hd hnull (hsub f List.mem_cons_self), Option.isSome_map]

theorem extras_asStored (hd : s.mode ≠ .dynamic) :
    extras s (asStored s row) = extras s row := by
  unfold extras
  rw [asStored, if_neg hd]
  split_ifs
  · rw [OrdMap.mapVal, List.filter_map]
    refine (List.map_congr_left fun e he => ?_).trans (List.map_id _)
    have hnone : s.field e.1 = none := by simpa using (List.mem_filter.mp he).2
    rw [hnone]
    rfl
  · rfl

/-- A record read back is written as the one it was stored for. -/
theorem encode_asStored (hnull : ¬ row.HasNull) :
    (RecordCodec.new s).encode (asStored s row) = (RecordCodec.new s).encode row := by
  by_cases hd : s.mode = .dynamic
  · rw [asStored, if_pos hd]
  · have hall : ∀ f ∈ s.fields, f ∈ s.fields := fun _ hf => hf
    obtain ⟨hvar, hoffsets⟩ := variable_asStored hd hnull hall 0
    have hregion := writeFixedRegion_asStored hd hnull hall 0 0
    have hbits := setBits_asStored hd hnull hall 0
      (List.replicate (bitmapLen s.fields.length) 0)
    have hbag : (RecordCodec.new s).overflow (asStored s row) =
        (RecordCodec.new s).overflow row := by
      rw [overflow_eq, overflow_eq, extras_asStored hd]
    have hmode : ¬ (RecordCodec.new s).schema.mode = .dynamic := hd
    unfold RecordCodec.encode RecordCodec.encodeWithHeader presenceBits
    rw [hbag, if_neg hmode, if_neg hmode]
    simp only [RecordCodec.new, hregion, hbits, hvar, hoffsets]
    rfl

end Twice

end Adabt.Storage
