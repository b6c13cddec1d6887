import Adabt.Core.Schema
import Adabt.Storage.TlvRoundTrip

/-! # Fixed-width slots

What a slot holds of a value, and that it is equal to the value. -/

set_option autoImplicit false

namespace Adabt.Storage
open Adabt.Core Adabt.Library

/-! ## Fixed-width slots

A slot is exactly as wide as its type. Numbers are coerced to the field's type
when written; text stores its length inline, then its content, then zeros. -/

def slotBool : Value → Bool
  | .bool b => b
  | _ => false

def slotI64 : Value → Int64
  | .i64 n => n
  | .u64 n => n.toInt64
  | _ => 0

def slotU64 : Value → UInt64
  | .u64 n => n
  | .i64 n => n.toUInt64
  | _ => 0

def slotTimestamp : Value → Int64
  | .timestamp t => t
  | _ => 0

/-- Units at the field's scale; `accepts` has already refused an inexact one. -/
def slotDecimal (scale : UInt8) : Value → BitVec 128
  | .decimal units s => (rescale units s scale).getD 0
  | .i64 n => (rescale (BitVec.ofInt 128 n.toInt) 0 scale).getD 0
  | .u64 n => (rescale (BitVec.ofInt 128 n.toNat) 0 scale).getD 0
  | _ => 0

def slotF64 : Value → F64
  | .f64 f => f
  | .i64 n => F64.ofInt n.toInt
  | .u64 n => F64.ofInt n.toNat
  | _ => ⟨0⟩

def slotContent : Value → Bytes
  | .str s => utf8 s
  | .bytes b => b
  | _ => []

def leadLen (width : UInt32) : ℕ := (FieldType.lengthPrefixBytes width).toNat

def notFixedWidth (ty : FieldType) : Error :=
  .invalidOptimization (ty.name ++ " is not a fixed-width type")

def writeText (v : Value) (width : UInt32) : Except Error Bytes :=
  let content := slotContent v
  let capacity := width.toNat - leadLen width
  if capacity < content.length then
    .error (.corruption ("value of " ++ toString content.length ++
      " bytes does not fit fixed slot capacity " ++ toString capacity))
  else
    .ok (leBytes (leadLen width) content.length ++ content ++
      List.replicate (capacity - content.length) 0)

def writeFixedSlot (ty : FieldType) (v : Value) (width : UInt32) : Except Error Bytes :=
  match ty with
  | .bool => .ok [if slotBool v then 1 else 0]
  | .i64 => .ok (leBytes 8 (slotI64 v).toUInt64.toNat)
  | .u64 => .ok (leBytes 8 (slotU64 v).toNat)
  | .timestamp => .ok (leBytes 8 (slotTimestamp v).toUInt64.toNat)
  | .decimal scale => .ok (leBytes 16 (slotDecimal scale v).toNat)
  | .f64 => .ok (leBytes 8 (slotF64 v).bits.toNat)
  | .char _ | .fixedBytes _ => writeText v width
  | other => .error (notFixedWidth other)

/-- The inline length, checked against the slot's capacity, and what follows it. -/
def readLead (w : UInt32) (c : Cursor) : Except Error (ℕ × Cursor) := do
  let (raw, c) ← c.take (leadLen w)
  let len := ofLeBytes raw
  let capacity := w.toNat - leadLen w
  if capacity < len then
    .error (.corruption ("fixed slot declares length " ++ toString len ++ " beyond capacity " ++
      toString capacity))
  else return (len, c)

def readFixedField (ty : FieldType) (buf : Bytes) : Except Error OrdValue :=
  let c := Cursor.new buf
  match ty with
  | .bool => do
    let (b, _) ← c.u8
    return ⟨.bool (b ≠ 0), trivial⟩
  | .i64 => do
    let (n, _) ← c.u64
    return ⟨.i64 n.toInt64, trivial⟩
  | .u64 => do
    let (n, _) ← c.u64
    return ⟨.u64 n, trivial⟩
  | .f64 => do
    let (n, _) ← c.u64
    return ⟨.f64 ⟨n⟩, trivial⟩
  | .timestamp => do
    let (n, _) ← c.u64
    return ⟨.timestamp n.toInt64, trivial⟩
  | .decimal scale => do
    let (b, _) ← c.take 16
    return ⟨.decimal (BitVec.ofNat 128 (ofLeBytes b)) scale, trivial⟩
  | .char w => do
    let (len, c) ← readLead w c
    let (s, _) ← c.string len
    return ⟨.str s, trivial⟩
  | .fixedBytes w => do
    let (len, c) ← readLead w c
    let (b, _) ← c.take len
    return ⟨.bytes b, trivial⟩
  | other => .error (notFixedWidth other)

/-- What a field of this type gives back for a value written to it. -/
def stored (ty : FieldType) (v : OrdValue) : OrdValue :=
  match ty with
  | .bool => ⟨.bool (slotBool v.1), trivial⟩
  | .i64 => ⟨.i64 (slotI64 v.1), trivial⟩
  | .u64 => ⟨.u64 (slotU64 v.1), trivial⟩
  | .timestamp => ⟨.timestamp (slotTimestamp v.1), trivial⟩
  | .decimal scale => ⟨.decimal (slotDecimal scale v.1) scale, trivial⟩
  | .f64 => ⟨.f64 (slotF64 v.1), trivial⟩
  | _ => v

theorem stored_bool (v : OrdValue) : stored .bool v = ⟨.bool (slotBool v.1), trivial⟩ := rfl

theorem stored_i64 (v : OrdValue) : stored .i64 v = ⟨.i64 (slotI64 v.1), trivial⟩ := rfl

theorem stored_u64 (v : OrdValue) : stored .u64 v = ⟨.u64 (slotU64 v.1), trivial⟩ := rfl

theorem stored_timestamp (v : OrdValue) :
    stored .timestamp v = ⟨.timestamp (slotTimestamp v.1), trivial⟩ := rfl

theorem stored_decimal (scale : UInt8) (v : OrdValue) :
    stored (.decimal scale) v = ⟨.decimal (slotDecimal scale v.1) scale, trivial⟩ := rfl

theorem stored_f64 (v : OrdValue) : stored .f64 v = ⟨.f64 (slotF64 v.1), trivial⟩ := rfl

theorem stored_of_variable {ty : FieldType} (h : ty.fixedWidth = none) (v : OrdValue) :
    stored ty v = v := by
  cases ty with
  | str _ | bytes _ | list _ | map | any => rfl
  | _ => cases h

theorem leadLen_cases (w : UInt32) :
    (w.toNat ≤ 256 ∧ leadLen w = 1) ∨ (w.toNat ≤ 65536 ∧ leadLen w = 2) ∨ leadLen w = 4 := by
  unfold leadLen FieldType.lengthPrefixBytes
  split
  · exact .inl ⟨UInt32.le_iff_toNat_le.mp ‹_›, rfl⟩
  · split
    · exact .inr (.inl ⟨UInt32.le_iff_toNat_le.mp ‹_›, rfl⟩)
    · exact .inr (.inr rfl)

/-- A length within the slot's capacity fits its inline field. -/
theorem capacity_lt_lead (w : UInt32) {n : ℕ} (h : n ≤ w.toNat - leadLen w) :
    n < 256 ^ leadLen w := by
  have hw : w.toNat < 2 ^ 32 := w.toNat_lt
  obtain ⟨hle, hl⟩ | ⟨hle, hl⟩ | hl := leadLen_cases w
  all_goals rw [hl] at h ⊢; omega

theorem readLead_append (w : UInt32) (p n : ℕ) (rest : Bytes) (h : n ≤ w.toNat - leadLen w) :
    readLead w ⟨p, leBytes (leadLen w) n ++ rest⟩ = .ok (n, ⟨p + leadLen w, rest⟩) := by
  rw [readLead, Cursor.take_append _ _ _ (leBytes_length _ _)]
  simp only [ok_bind, ofLeBytes_leBytes (capacity_lt_lead w h), if_neg (Nat.not_lt.mpr h)]
  rfl

def IsFixed (ty : FieldType) : Prop := ty.fixedWidth ≠ none

/-- What `validate_record` has established about a value before it is written. -/
structure SlotReady (ty : FieldType) (v : OrdValue) : Prop where
  accepts : ty.accepts v.1
  present : v.1.isNull = false
  width : ∀ len cap, FieldType.encodedLen v.1 = some len → ty.contentCapacity = some cap →
    len ≤ cap.toNat

theorem contentCapacity_toNat {ty : FieldType} {w cap : UInt32}
    (ht : ty = .char w ∨ ty = .fixedBytes w) (hc : ty.contentCapacity = some cap) :
    leadLen w ≤ w.toNat ∧ cap.toNat = w.toNat - leadLen w := by
  have h : FieldType.lengthPrefixBytes w ≤ w ∧ cap = w - FieldType.lengthPrefixBytes w := by
    rcases ht with rfl | rfl
    all_goals
      simp only [FieldType.contentCapacity] at hc
      split at hc
      · exact ⟨‹_›, (Option.some.inj hc).symm⟩
      · cases hc
  obtain ⟨hle, rfl⟩ := h
  exact ⟨UInt32.le_iff_toNat_le.mp hle, UInt32.toNat_sub_of_le _ _ hle⟩

theorem writeText_ok {v : Value} {w : UInt32} (hl : leadLen w ≤ w.toNat)
    (h : (slotContent v).length ≤ w.toNat - leadLen w) :
    ∃ pad, writeText v w =
        .ok (leBytes (leadLen w) (slotContent v).length ++ (slotContent v ++ pad)) ∧
      (leBytes (leadLen w) (slotContent v).length ++ (slotContent v ++ pad)).length = w.toNat := by
  refine ⟨List.replicate (w.toNat - leadLen w - (slotContent v).length) 0, ?_, ?_⟩
  · rw [writeText, if_neg (Nat.not_lt.mpr h), List.append_assoc]
  · simp only [List.length_append, leBytes_length, List.length_replicate]
    omega

theorem readU64Field (n : UInt64) :
    Cursor.u64 (Cursor.new (leBytes 8 n.toNat)) = .ok (n, ⟨8, []⟩) := by
  simpa [Cursor.new] using Cursor.u64_append 0 n []

theorem text_fits {ty : FieldType} {v : Value} {w : UInt32} {len : ℕ}
    (ht : ty = .char w ∨ ty = .fixedBytes w) (hcap : ty.contentCapacity.getD 0 ≠ 0)
    (hlen : FieldType.encodedLen v = some len)
    (hwidth : ∀ len cap, FieldType.encodedLen v = some len → ty.contentCapacity = some cap →
      len ≤ cap.toNat) : leadLen w ≤ w.toNat ∧ len ≤ w.toNat - leadLen w := by
  cases hc : ty.contentCapacity with
  | none => simp [hc] at hcap
  | some cap =>
    obtain ⟨hl, hcw⟩ := contentCapacity_toNat ht hc
    exact ⟨hl, hcw ▸ hwidth len cap hlen hc⟩

theorem accepts_char {n : UInt32} {v : Value} (h : (FieldType.char n).accepts v)
    (hn : v.isNull = false) : ∃ s, v = .str s := by
  cases v <;> simp_all [FieldType.accepts, Value.isNull]

theorem accepts_fixedBytes {n : UInt32} {v : Value} (h : (FieldType.fixedBytes n).accepts v)
    (hn : v.isNull = false) : ∃ b, v = .bytes b := by
  cases v <;> simp_all [FieldType.accepts, Value.isNull]

/-- A ready value fills its slot exactly and reads back as `stored` says. -/
theorem fixedSlot_roundTrip {ty : FieldType} {v : OrdValue} {w : UInt32}
    (hw : ty.fixedWidth = some w) (hcap : ty.IsText → ty.contentCapacity.getD 0 ≠ 0)
    (hv : SlotReady ty v) :
    ∃ bytes, writeFixedSlot ty v.1 w = .ok bytes ∧ bytes.length = w.toNat ∧
      readFixedField ty bytes = .ok (stored ty v) := by
  cases ty with
  | bool =>
    obtain rfl := Option.some.inj hw
    refine ⟨_, rfl, rfl, ?_⟩
    cases hb : slotBool v.1 <;> simp [readFixedField, Cursor.new, stored_bool, hb]
  | i64 =>
    obtain rfl := Option.some.inj hw
    refine ⟨_, rfl, leBytes_length _ _, ?_⟩
    simp [readFixedField, readU64Field, stored_i64]
  | u64 =>
    obtain rfl := Option.some.inj hw
    refine ⟨_, rfl, leBytes_length _ _, ?_⟩
    simp [readFixedField, readU64Field, stored_u64]
  | f64 =>
    obtain rfl := Option.some.inj hw
    refine ⟨_, rfl, leBytes_length _ _, ?_⟩
    simp [readFixedField, readU64Field, stored_f64]
  | timestamp =>
    obtain rfl := Option.some.inj hw
    refine ⟨_, rfl, leBytes_length _ _, ?_⟩
    simp [readFixedField, readU64Field, stored_timestamp]
  | decimal scale =>
    obtain rfl := Option.some.inj hw
    refine ⟨_, rfl, leBytes_length _ _, ?_⟩
    have hu : (slotDecimal scale v.1).toNat < 256 ^ 16 := (slotDecimal scale v.1).isLt
    have htake := Cursor.take_append 0 (leBytes 16 (slotDecimal scale v.1).toNat) []
      (leBytes_length 16 _)
    rw [List.append_nil] at htake
    simp [readFixedField, Cursor.new, htake, ofLeBytes_leBytes hu, stored_decimal]
  | char n =>
    obtain rfl : w = n := (Option.some.inj hw).symm
    obtain ⟨s, hs⟩ := accepts_char hv.accepts hv.present
    obtain ⟨hl, hle⟩ := text_fits (.inl rfl) (hcap rfl) (by rw [hs]; rfl) hv.width
    have hcontent : slotContent v.1 = utf8 s := by rw [hs]; rfl
    obtain ⟨pad, hwrite, hlength⟩ := writeText_ok (v := v.1) hl (by rw [hcontent]; simpa using hle)
    refine ⟨_, hwrite, hlength, ?_⟩
    rw [hcontent, utf8_length]
    simp only [readFixedField, Cursor.new, readLead_append _ _ _ _ hle, ok_bind,
      Cursor.string_append]
    exact congrArg Except.ok (Subtype.ext hs.symm)
  | fixedBytes n =>
    obtain rfl : w = n := (Option.some.inj hw).symm
    obtain ⟨b, hb⟩ := accepts_fixedBytes hv.accepts hv.present
    obtain ⟨hl, hle⟩ := text_fits (.inr rfl) (hcap rfl) (by rw [hb]; rfl) hv.width
    have hcontent : slotContent v.1 = b := by rw [hb]; rfl
    obtain ⟨pad, hwrite, hlength⟩ := writeText_ok (v := v.1) hl (by rw [hcontent]; exact hle)
    refine ⟨_, hwrite, hlength, ?_⟩
    rw [hcontent]
    simp only [readFixedField, Cursor.new, readLead_append _ _ _ _ hle, ok_bind,
      Cursor.take_append _ b pad rfl]
    exact congrArg Except.ok (Subtype.ext hb.symm)
  | str _ | bytes _ | list _ | map | any => cases hw

/-! ## Coerced values are the values that were written

A slot may change a number's variant: an integer becomes a decimal or a float,
a decimal moves to the field's scale. The coerced value is equal to the one
written unless a wide unsigned integer went into a signed field. -/

/-- An unsigned value past `i64::MAX` in a signed field. -/
def wideUnsigned : FieldType → Value → Bool
  | .i64, .u64 n => 2 ^ 63 ≤ n.toNat
  | _, _ => false

theorem checkedI128_toInt {n : Int} {b : BitVec 128} (h : checkedI128 n = some b) :
    b.toInt = n := by
  unfold checkedI128 at h
  split at h
  · rename_i hr
    rw [← Option.some.inj h, BitVec.toInt_ofInt]
    rw [Int.bmod_eq_of_le] <;> omega
  · cases h

theorem checkedI128_self (b : BitVec 128) : checkedI128 b.toInt = some b := by
  have h1 := b.le_toInt
  have h2 := b.toInt_lt
  rw [checkedI128, if_pos ⟨by omega, by omega⟩, BitVec.ofInt_toInt]

theorem lift_self (target : UInt8) (b : BitVec 128) :
    Value.lift target b.toInt target = some b := by
  simp [Value.lift, checkedPow10, checkedI128_self]

theorem lift_of_rescale_up {units r : BitVec 128} {source target : UInt8}
    (hle : source ≤ target) (h : rescale units source target = some r) :
    Value.lift target units.toInt source = some r := by
  rwa [rescale, if_pos hle] at h

theorem lift_of_rescale_down {units r : BitVec 128} {source target : UInt8}
    (hlt : ¬ source ≤ target) (h : rescale units source target = some r) :
    Value.lift source r.toInt target = some units := by
  rw [rescale, if_neg hlt] at h
  obtain ⟨f, hf, h⟩ := Option.bind_eq_some_iff.mp h
  split at h
  · rename_i hmod
    have hdvd : f ∣ units.toInt := Int.dvd_of_tmod_eq_zero hmod
    rw [Value.lift, hf, checkedI128_toInt h, Option.bind_eq_bind, Option.bind_some,
      Int.tdiv_mul_cancel hdvd, checkedI128_self]
  · cases h

theorem scale_max (a b : UInt8) : max a b = if a ≤ b then b else a := rfl

/-- A rescaled decimal is exactly the number it was rescaled from. -/
theorem cmpExact_rescale {b : Value} {units r : BitVec 128} {source target : UInt8}
    (hb : b.exactUnits = some (units.toInt, source)) (h : rescale units source target = some r) :
    Value.cmpExact (.decimal r target) b = some .eq := by
  have hd : (Value.decimal r target).exactUnits = some (r.toInt, target) := rfl
  by_cases hle : source ≤ target
  · have hmax : max target source = target := by
      rw [scale_max]
      split
      · exact UInt8.le_antisymm hle ‹_›
      · rfl
    simp [Value.cmpExact, hd, hb, hmax, lift_self, lift_of_rescale_up hle h]
  · have hmax : max target source = source := by
      rw [scale_max, if_pos (UInt8.le_of_lt (UInt8.not_le.mp hle))]
    simp [Value.cmpExact, hd, hb, hmax, lift_self, lift_of_rescale_down hle h]

theorem rescale_eqv {b : Value} {units r : BitVec 128} {source target : UInt8}
    (hb : b.exactUnits = some (units.toInt, source)) (hrank : b.rank = 2)
    (h : rescale units source target = some r) : Value.Eqv (.decimal r target) b := by
  rw [Value.Eqv, Value.cmp, if_pos hrank, Value.cmpNumeric, cmpExact_rescale hb h]
  rfl

theorem toInt_ofInt_i64 (n : Int64) : (BitVec.ofInt 128 n.toInt).toInt = n.toInt := by
  have h1 := n.le_toInt
  have h2 := n.toInt_lt
  rw [BitVec.toInt_ofInt, Int.bmod_eq_of_le] <;> omega

theorem toInt_ofInt_u64 (n : UInt64) : (BitVec.ofInt 128 n.toNat).toInt = n.toNat := by
  have h := n.toNat_lt
  rw [BitVec.toInt_ofInt, Int.bmod_eq_of_le] <;> omega

theorem cmpExact_integers {a b : Value} {x y : Int} (ha : a.exactUnits = some (x, 0))
    (hb : b.exactUnits = some (y, 0)) (hx : -(2 ^ 127) ≤ x ∧ x < 2 ^ 127)
    (hy : -(2 ^ 127) ≤ y ∧ y < 2 ^ 127) : Value.cmpExact a b = some (compare x y) := by
  have hlift : ∀ z : Int, -(2 ^ 127) ≤ z ∧ z < 2 ^ 127 →
      Value.lift 0 z 0 = some (BitVec.ofInt 128 z) := by
    intro z hz
    rw [Value.lift, checkedPow10, if_pos (by decide), Option.bind_eq_bind, Option.bind_some]
    rw [Nat.sub_self, pow_zero, mul_one, checkedI128, if_pos hz]
  have hval : ∀ z : Int, -(2 ^ 127) ≤ z ∧ z < 2 ^ 127 → (BitVec.ofInt 128 z).toInt = z := by
    intro z hz
    rw [BitVec.toInt_ofInt, Int.bmod_eq_of_le] <;> omega
  have hmax : max (0 : UInt8) 0 = 0 := rfl
  simp [Value.cmpExact, ha, hb, hmax, hlift x hx, hlift y hy, hval x hx, hval y hy]

theorem numKey_eqv {f : F64} {b : Value} (hrank : b.rank = 2) (hb : b.asNum = some f) :
    Value.Eqv (.f64 f) b := by
  have hex : Value.cmpExact (.f64 f) b = none := rfl
  have hkey : (Value.f64 f).numKey = b.numKey := by rw [Value.numKey, Value.numKey, hb]; rfl
  rw [Value.Eqv, Value.cmp, if_pos hrank, Value.cmpNumeric, hex, hkey]
  simp

theorem i64_eqv_u64_iff (n : UInt64) : Value.Eqv (.i64 n.toInt64) (.u64 n) ↔ n.toNat < 2 ^ 63 := by
  have h1 := n.toInt64.le_toInt
  have h2 := n.toInt64.toInt_lt
  have h3 := n.toNat_lt
  have hc : Value.cmpExact (.i64 n.toInt64) (.u64 n) = some (compare n.toInt64.toInt n.toNat) :=
    cmpExact_integers rfl rfl (by omega) (by omega)
  have hi : n.toInt64.toInt = (n.toNat : Int).bmod (2 ^ 64) :=
    BitVec.toInt_eq_toNat_bmod n.toBitVec
  have hrank : (Value.u64 n).rank = 2 := rfl
  rw [Value.Eqv, Value.cmp, if_pos hrank, Value.cmpNumeric, hc, Option.getD_some,
    compare_eq_iff_eq, hi, Int.bmod_def]
  split <;> omega

theorem u64_eqv_i64 {n : Int64} (h : 0 ≤ n.toInt) : Value.Eqv (.u64 n.toUInt64) (.i64 n) := by
  have h2 := n.toInt_lt
  have h3 := n.toUInt64.toNat_lt
  have hb : n.toInt = (n.toUInt64.toNat : Int).bmod (2 ^ 64) :=
    BitVec.toInt_eq_toNat_bmod n.toBitVec
  have hn : (n.toUInt64.toNat : Int) = n.toInt := by
    rw [Int.bmod_def] at hb
    split at hb <;> omega
  have hrank : (Value.i64 n).rank = 2 := rfl
  have hc : Value.cmpExact (.u64 n.toUInt64) (.i64 n) =
      some (compare (n.toUInt64.toNat : Int) n.toInt) :=
    cmpExact_integers rfl rfl (by omega) (by omega)
  rw [Value.Eqv, Value.cmp, if_pos hrank, Value.cmpNumeric, hc, Option.getD_some,
    compare_eq_iff_eq, hn]

/-- A stored value equals the written one except for a wide unsigned integer. -/
theorem stored_eqv_iff {ty : FieldType} {v : OrdValue} (ha : ty.accepts v.1)
    (hn : v.1.isNull = false) : (stored ty v).1.Eqv v.1 ↔ wideUnsigned ty v.1 = false := by
  obtain ⟨v, hv⟩ := v
  have same : ∀ {t : FieldType} {u : OrdValue}, t ≠ .i64 → (stored t u).1.Eqv u.1 →
      ((stored t u).1.Eqv u.1 ↔ wideUnsigned t u.1 = false) := by
    intro t u ht h
    refine ⟨fun _ => ?_, fun _ => h⟩
    cases t <;> first | rfl | exact absurd rfl ht
  cases ty with
  | i64 =>
    cases v with
    | i64 n => exact ⟨fun _ => rfl, fun _ => .refl _⟩
    | u64 n => exact (i64_eqv_u64_iff n).trans (by simp [wideUnsigned])
    | _ => simp_all [FieldType.accepts, Value.isNull]
  | bool =>
    cases v with
    | bool b => exact same (by simp) (.refl _)
    | _ => simp_all [FieldType.accepts, Value.isNull]
  | u64 =>
    cases v with
    | u64 n => exact same (by simp) (.refl _)
    | i64 n => exact same (by simp) (u64_eqv_i64 (by simpa [FieldType.accepts] using ha))
    | _ => simp_all [FieldType.accepts, Value.isNull]
  | f64 =>
    cases v with
    | f64 f => exact same (by simp) (.refl _)
    | i64 n => exact same (by simp) (numKey_eqv rfl rfl)
    | u64 n => exact same (by simp) (numKey_eqv rfl rfl)
    | _ => simp_all [FieldType.accepts, Value.isNull]
  | timestamp =>
    cases v with
    | timestamp t => exact same (by simp) (.refl _)
    | _ => simp_all [FieldType.accepts, Value.isNull]
  | decimal scale =>
    refine same (by simp) ?_
    cases v with
    | decimal units s =>
      obtain ⟨r, hr⟩ := Option.isSome_iff_exists.mp ha
      have hs : slotDecimal scale (.decimal units s) = r := by rw [slotDecimal, hr]; rfl
      simpa only [stored_decimal, hs] using rescale_eqv (b := .decimal units s) rfl rfl hr
    | i64 n =>
      obtain ⟨r, hr⟩ := Option.isSome_iff_exists.mp ha
      have hs : slotDecimal scale (.i64 n) = r := by rw [slotDecimal, hr]; rfl
      have hb : (Value.i64 n).exactUnits = some ((BitVec.ofInt 128 n.toInt).toInt, 0) := by
        rw [toInt_ofInt_i64]; rfl
      simpa only [stored_decimal, hs] using rescale_eqv hb rfl hr
    | u64 n =>
      obtain ⟨r, hr⟩ := Option.isSome_iff_exists.mp ha
      have hs : slotDecimal scale (.u64 n) = r := by rw [slotDecimal, hr]; rfl
      have hb : (Value.u64 n).exactUnits = some ((BitVec.ofInt 128 n.toNat).toInt, 0) := by
        rw [toInt_ofInt_u64]; rfl
      simpa only [stored_decimal, hs] using rescale_eqv hb rfl hr
    | _ => simp_all [FieldType.accepts, Value.isNull]
  | char _ | fixedBytes _ | str _ | bytes _ | list _ | map | any =>
    exact same (by simp) (.refl _)

end Adabt.Storage
