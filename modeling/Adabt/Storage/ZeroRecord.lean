import Adabt.Storage.CodecRoundTrip

/-! # Records of zeros

Every schema accepts the record that gives each field the zero of its type. Its
fixed region is all zeros, so a reader that looks one byte early, where the
bitmap ends, sees a one it should not. -/

set_option autoImplicit false

namespace Adabt.Storage
open Adabt.Core Adabt.Library

def zeroValue : FieldType → OrdValue
  | .bool | .any => ⟨.bool false, trivial⟩
  | .i64 => ⟨.i64 0, trivial⟩
  | .u64 => ⟨.u64 0, trivial⟩
  | .f64 => ⟨.f64 ⟨0⟩, trivial⟩
  | .decimal scale => ⟨.decimal 0 scale, trivial⟩
  | .timestamp => ⟨.timestamp 0, trivial⟩
  | .char _ | .str _ => ⟨.str "", trivial⟩
  | .fixedBytes _ | .bytes _ => ⟨.bytes [], trivial⟩
  | .list _ => ⟨.list [], trivial⟩
  | .map => ⟨.map [], List.Pairwise.nil, trivial⟩

def zeroRecord (fields : List FieldDef) : Record :=
  (∅ : Record).insertAll (fields.map fun f => (f.name, zeroValue f.ty))

theorem get_zeroRecord {fields : List FieldDef} (hn : (fields.map (·.name)).Nodup)
    {f : FieldDef} (hf : f ∈ fields) :
    (zeroRecord fields).get f.name = some (zeroValue f.ty) := by
  refine OrdMap.get_insertAll_of_mem _ ?_ (List.mem_map_of_mem hf)
  rwa [List.map_map]

theorem zeroRecord_get {fields : List FieldDef} (hn : (fields.map (·.name)).Nodup)
    {name : String} {v : OrdValue} (hv : (zeroRecord fields).get name = some v) :
    ∃ f ∈ fields, f.name = name ∧ v = zeroValue f.ty := by
  by_cases hmem : name ∈ fields.map (·.name)
  · obtain ⟨f, hf, rfl⟩ := List.mem_map.mp hmem
    rw [get_zeroRecord hn hf] at hv
    exact ⟨f, hf, rfl, (Option.some.inj hv).symm⟩
  · rw [zeroRecord, OrdMap.get_insertAll_of_not_mem _ _ _ (by rwa [List.map_map])] at hv
    cases hv

theorem rescale_zero (scale : UInt8) : rescale 0 scale scale = some 0 := by
  rw [rescale, if_pos (UInt8.le_refl scale), Nat.sub_self]
  rfl

theorem zeroValue_accepted (ty : FieldType) : ty.accepts (zeroValue ty).1 := by
  cases ty with
  | decimal scale =>
    show (rescale 0 scale scale).isSome
    rw [rescale_zero]
    rfl
  | u64 => rfl
  | _ => rfl

theorem zeroValue_plain (ty : FieldType) :
    (zeroValue ty).1.isNull = false ∧ (zeroValue ty).1.nesting = 0 ∧
      ∀ len, FieldType.encodedLen (zeroValue ty).1 = some len → len = 0 := by
  cases ty <;> simp [zeroValue, Value.isNull, Value.nesting, Value.nestingItems,
    Value.nestingEntries, FieldType.encodedLen]

theorem checkWidth_zero (field : String) (len : Option ℕ) (limit : Option UInt32)
    (h : ∀ n, len = some n → n = 0) : Schema.checkWidth field len limit = .ok () := by
  cases limit with
  | none => rfl
  | some cap =>
    cases len with
    | none => rfl
    | some n => simp [Schema.checkWidth, h n rfl]

theorem zeroRecord_valid (s : Schema) : s.validateRecord (zeroRecord s.fields) = .ok () := by
  have hfields : checkAll (Schema.checkField (zeroRecord s.fields)) s.fields = .ok () := by
    refine checkAll_eq_ok.mpr fun f hf => ?_
    obtain ⟨hnull, -, hlen⟩ := zeroValue_plain f.ty
    simp only [Schema.checkField, get_zeroRecord s.names_nodup hf, hnull, ensure,
      if_pos (zeroValue_accepted f.ty), checkWidth_zero _ _ _ hlen]
    rfl
  rw [Schema.validateRecord]
  split
  · exact hfields
  · have hkeys : checkAll (fun name => ensure (s.field name).isSome
        (SchemaError.unknownField name s.mode)) (zeroRecord s.fields).keys = .ok () := by
      refine checkAll_eq_ok.mpr fun name hk => ?_
      obtain ⟨v, hv⟩ := Option.isSome_iff_exists.mp ((OrdMap.mem_keys _ _).mp hk)
      obtain ⟨f, hf, rfl, -⟩ := zeroRecord_get s.names_nodup hv
      rw [ensure_eq_ok, s.field_of_mem hf]
      rfl
    rw [hkeys]
    exact hfields

theorem zeroRecord_noNull (s : Schema) : ¬ (zeroRecord s.fields).HasNull := by
  rintro ⟨⟨name, v⟩, he, hnull⟩
  obtain ⟨f, -, -, rfl⟩ := zeroRecord_get s.names_nodup ((OrdMap.mem_entries _ _ _).mp he)
  rw [(zeroValue_plain f.ty).1] at hnull
  cases hnull

theorem zeroRecord_flat (s : Schema) : (zeroRecord s.fields).NestedAtMost maxDepth := by
  rintro ⟨name, v⟩ he
  obtain ⟨f, -, -, rfl⟩ := zeroRecord_get s.names_nodup ((OrdMap.mem_entries _ _ _).mp he)
  rw [(zeroValue_plain f.ty).2.1]
  exact Nat.zero_le _

theorem present_zeroRecord {s : Schema} {f : FieldDef} (hf : f ∈ s.fields) :
    present (zeroRecord s.fields) f = some (zeroValue f.ty) := by
  rw [present_of_noNull (zeroRecord_noNull s), get_zeroRecord s.names_nodup hf]

theorem stored_zeroValue (ty : FieldType) : stored ty (zeroValue ty) = zeroValue ty := by
  cases ty with
  | decimal scale =>
    refine Subtype.ext ?_
    show Value.decimal ((rescale 0 scale scale).getD 0) scale = _
    rw [rescale_zero]
    rfl
  | _ => rfl

/-- The slot of a zero is all zeros. -/
theorem writeSlot_zero {ty : FieldType} {w : UInt32} (hw : ty.fixedWidth = some w)
    (hcap : ty.IsText → ty.contentCapacity.getD 0 ≠ 0) :
    writeFixedSlot ty (zeroValue ty).1 w = .ok (List.replicate w.toNat 0) := by
  have text : ∀ (v : Value), (ty = .char w ∨ ty = .fixedBytes w) → slotContent v = [] →
      writeText v w = .ok (List.replicate w.toNat 0) := by
    intro v ht hc
    have hcap' : ty.contentCapacity.getD 0 ≠ 0 := hcap (by rcases ht with rfl | rfl <;> rfl)
    obtain ⟨cap, hcapeq⟩ : ∃ cap, ty.contentCapacity = some cap := by
      cases hc : ty.contentCapacity with
      | none => simp [hc] at hcap'
      | some cap => exact ⟨cap, rfl⟩
    have hl := (contentCapacity_toNat ht hcapeq).1
    rw [writeText, hc]
    simp only [List.length_nil, Nat.not_lt_zero, if_false, leBytes_zero, List.append_nil,
      Nat.sub_zero, List.replicate_append_replicate]
    rw [Nat.add_sub_cancel' hl]
  cases ty with
  | bool | i64 | u64 | f64 | timestamp =>
    obtain rfl := Option.some.inj hw
    rfl
  | decimal scale =>
    obtain rfl := Option.some.inj hw
    show Except.ok (leBytes 16 ((rescale 0 scale scale).getD 0).toNat) = _
    rw [rescale_zero]
    rfl
  | char n =>
    obtain rfl := Option.some.inj hw
    exact text (.str "") (.inl rfl) rfl
  | fixedBytes n =>
    obtain rfl := Option.some.inj hw
    exact text (.bytes []) (.inr rfl) rfl
  | str _ | bytes _ | list _ | map | any => cases hw

theorem writeFixedRegion_zero (s : Schema) (i : ℕ) (off : UInt32) (fields : List FieldDef)
    (hsub : ∀ f ∈ fields, f ∈ s.fields) :
    writeFixedRegion (zeroRecord s.fields) (fixedFields i off fields) =
      .ok (List.replicate (fixedWidths fields) 0) := by
  induction fields generalizing i off with
  | nil => rfl
  | cons f rest ih =>
    have hf := hsub f List.mem_cons_self
    have hrest := fun g hg => hsub g (List.mem_cons_of_mem _ hg)
    rw [fixedFields, fixedWidths]
    cases hw : f.ty.fixedWidth with
    | none => simpa using ih (i + 1) off hrest
    | some w =>
      have hslot : writeSlot (zeroRecord s.fields) f w = .ok (List.replicate w.toNat 0) := by
        rw [writeSlot, present_zeroRecord hf]
        exact writeSlot_zero hw (s.fieldsValid.2 f hf).capacity
      simp only [writeFixedRegion, hslot, ok_bind, ih (i + 1) (off + w) hrest]
      rw [Option.getD_some, ← List.replicate_append_replicate]
      rfl

/-- A zero slot read one byte early, behind a one, is not a zero. -/
theorem misread_zero {ty : FieldType} {w : UInt32} (hw : ty.fixedWidth = some w)
    (hcap : ty.IsText → ty.contentCapacity.getD 0 ≠ 0) :
    0 < w.toNat ∧ ∃ v, readFixedField ty (1 :: List.replicate (w.toNat - 1) 0) = .ok v ∧
      v ≠ zeroValue ty := by
  have text : (ty = .char w ∨ ty = .fixedBytes w) → 0 < w.toNat ∧
      readLead w (.new (1 :: List.replicate (w.toNat - 1) 0)) =
        .ok (1, ⟨leadLen w, List.replicate (w.toNat - leadLen w) 0⟩) ∧
      1 ≤ w.toNat - leadLen w := by
    intro ht
    have hcap' : ty.contentCapacity.getD 0 ≠ 0 := hcap (by rcases ht with rfl | rfl <;> rfl)
    obtain ⟨cap, hcapeq⟩ : ∃ cap, ty.contentCapacity = some cap := by
      cases hc : ty.contentCapacity with
      | none => simp [hc] at hcap'
      | some cap => exact ⟨cap, rfl⟩
    obtain ⟨hl, hcw⟩ := contentCapacity_toNat ht hcapeq
    have hpos : cap.toNat ≠ 0 := fun h0 => hcap' (by
      rw [hcapeq]
      exact UInt32.toNat_inj.mp h0)
    have hlead : 1 ≤ leadLen w := by
      rcases leadLen_cases w with ⟨-, h⟩ | ⟨-, h⟩ | h <;> omega
    have hsplit : (1 : UInt8) :: List.replicate (w.toNat - 1) 0 =
        leBytes (leadLen w) 1 ++ List.replicate (w.toNat - leadLen w) 0 := by
      obtain ⟨l, hl'⟩ : ∃ l, leadLen w = l + 1 := ⟨leadLen w - 1, by omega⟩
      rw [hl', leBytes, show 1 / 256 = 0 from rfl, leBytes_zero, List.cons_append,
        List.replicate_append_replicate]
      congr 2
      omega
    refine ⟨by omega, ?_, by omega⟩
    rw [Cursor.new, hsplit, readLead_append w 0 1 _ (by omega), Nat.zero_add]
  have differ : ∀ {a b : OrdValue}, a.1 ≠ b.1 → a ≠ b := fun h he => h (congrArg Subtype.val he)
  cases ty with
  | bool =>
    obtain rfl := Option.some.inj hw
    exact ⟨by decide, ⟨.bool true, trivial⟩, rfl, differ (by simp [zeroValue])⟩
  | i64 =>
    obtain rfl := Option.some.inj hw
    exact ⟨by decide, ⟨.i64 1, trivial⟩, rfl, differ (by simp [zeroValue])⟩
  | u64 =>
    obtain rfl := Option.some.inj hw
    exact ⟨by decide, ⟨.u64 1, trivial⟩, rfl, differ (by simp [zeroValue])⟩
  | f64 =>
    obtain rfl := Option.some.inj hw
    exact ⟨by decide, ⟨.f64 ⟨1⟩, trivial⟩, rfl, differ (by simp [zeroValue])⟩
  | timestamp =>
    obtain rfl := Option.some.inj hw
    exact ⟨by decide, ⟨.timestamp 1, trivial⟩, rfl, differ (by simp [zeroValue])⟩
  | decimal scale =>
    obtain rfl := Option.some.inj hw
    exact ⟨by decide, ⟨.decimal 1 scale, trivial⟩, rfl, differ (by simp [zeroValue])⟩
  | char n =>
    obtain rfl : n = w := Option.some.inj hw
    obtain ⟨hpos, hlead, hroom⟩ := text (.inl rfl)
    obtain ⟨m, hm⟩ : ∃ m, n.toNat - leadLen n = m + 1 := ⟨n.toNat - leadLen n - 1, by omega⟩
    refine ⟨hpos, ⟨.str "\x00", trivial⟩, ?_, differ (by simp [zeroValue])⟩
    have hstr : Cursor.string 1 ⟨leadLen n, 0 :: List.replicate m 0⟩ =
        .ok ("\x00", ⟨leadLen n + 1, List.replicate m 0⟩) :=
      Cursor.string_append (leadLen n) "\x00" (List.replicate m 0)
    simp only [readFixedField, hlead, ok_bind, hm, List.replicate_succ, hstr]
    rfl
  | fixedBytes n =>
    obtain rfl : n = w := Option.some.inj hw
    obtain ⟨hpos, hlead, hroom⟩ := text (.inr rfl)
    obtain ⟨m, hm⟩ : ∃ m, n.toNat - leadLen n = m + 1 := ⟨n.toNat - leadLen n - 1, by omega⟩
    refine ⟨hpos, ⟨.bytes [0], trivial⟩, ?_, differ (by simp [zeroValue])⟩
    have htake : Cursor.take 1 ⟨leadLen n, 0 :: List.replicate m 0⟩ =
        .ok ([0], ⟨leadLen n + 1, List.replicate m 0⟩) :=
      Cursor.take_append (leadLen n) [0] (List.replicate m 0) rfl
    simp only [readFixedField, hlead, ok_bind, hm, List.replicate_succ, htake]
    rfl
  | str _ | bytes _ | list _ | map | any => cases hw

end Adabt.Storage
