import Adabt.Core.Rounding
import Adabt.Core.Arith
import Adabt.Core.ValueOrder

/-! # Exact arithmetic and equal operands

Where nothing leaves 128 bits a sum or a difference is exact, and a product or a
quotient is cut toward zero at the larger scale of its operands. So how many zeros an
operand was written with decides how many digits a product keeps. -/

set_option autoImplicit false

namespace Adabt.Core
open Value

/-! ## Cutting toward zero -/

def truncate (q : ℚ) : ℤ := if 0 ≤ q then ⌊q⌋ else ⌈q⌉

/-- A number without the digits beyond a scale. -/
def cutAt (s : UInt8) (q : ℚ) : ℚ := truncate (q * 10 ^ s.toNat) / 10 ^ s.toNat

@[simp] theorem truncate_intCast (n : ℤ) : truncate (n : ℚ) = n := by
  rw [truncate, Int.floor_intCast, Int.ceil_intCast, ite_self]

theorem truncate_neg (q : ℚ) : truncate (-q) = -truncate q := by
  rcases lt_trichotomy q 0 with h | rfl | h
  · rw [truncate, truncate, if_pos (by linarith), if_neg (by linarith), Int.floor_neg]
  · rw [neg_zero]
    exact (Int.neg_eq_zero.mpr (truncate_intCast 0)).symm
  · rw [truncate, truncate, if_neg (by linarith), if_pos (by linarith), Int.ceil_neg]

/-- Integer division cuts toward zero. -/
theorem truncate_div (x y : ℤ) : truncate ((x : ℚ) / y) = x.tdiv y := by
  have hpos : ∀ m n : ℕ, truncate (((m : ℤ) : ℚ) / ((n : ℤ) : ℚ)) = (m : ℤ).tdiv n := by
    intro m n
    rw [Int.cast_natCast, Int.cast_natCast, truncate, if_pos (by positivity),
      Rat.floor_natCast_div_natCast, ← Int.natCast_div, Int.ofNat_tdiv]
  obtain ⟨m, rfl | rfl⟩ := Int.eq_nat_or_neg x <;> obtain ⟨n, rfl | rfl⟩ := Int.eq_nat_or_neg y
  · exact hpos m n
  · rw [Int.tdiv_neg, Int.cast_neg, div_neg, truncate_neg, hpos]
  · rw [Int.neg_tdiv, Int.cast_neg, neg_div, truncate_neg, hpos]
  · rw [Int.neg_tdiv, Int.tdiv_neg, neg_neg, Int.cast_neg, Int.cast_neg, neg_div_neg_eq, hpos]

/-- More digits are kept at a finer scale. -/
theorem truncate_scaled {q : ℚ} (hq : 0 ≤ q) (k : ℕ) :
    0 ≤ truncate q ∧ truncate q * k ≤ truncate (q * k) := by
  have hqk : 0 ≤ q * k := by positivity
  rw [truncate, if_pos hq, truncate, if_pos hqk]
  refine ⟨Int.floor_nonneg.mpr hq, Int.le_floor.mpr ?_⟩
  push_cast
  exact mul_le_mul_of_nonneg_right (Int.floor_le q) (by positivity)

/-! ## When nothing overflows -/

/-- Both operands at the larger scale, and that scale. -/
def aligned (a b : Value) : Option (ℤ × ℤ × UInt8) := do
  let (au, asc) ← a.exactUnits
  let (bu, bsc) ← b.exactUnits
  let x ← lift (max asc bsc) au asc
  let y ← lift (max asc bsc) bu bsc
  return (x.toInt, y.toInt, max asc bsc)

/-- A signed number of 128 bits. -/
def InI128 (n : ℤ) : Prop := -(2 ^ 127) ≤ n ∧ n < 2 ^ 127

instance (n : ℤ) : Decidable (InI128 n) := inferInstanceAs (Decidable (_ ∧ _))

/-- What is computed on the way stays within 128 bits. -/
def ArithOp.StaysIn (op : ArithOp) (s : UInt8) (x y : ℤ) : Prop :=
  match op with
  | .add => InI128 (x + y)
  | .sub => InI128 (x - y)
  | .mul => 10 ^ s.toNat < 2 ^ 127 ∧ InI128 (x * y)
  | .div => y = 0 ∨ 10 ^ s.toNat < 2 ^ 127 ∧ InI128 (x * 10 ^ s.toNat) ∧
      InI128 ((x * 10 ^ s.toNat).tdiv y)

instance (op : ArithOp) (s : UInt8) (x y : ℤ) : Decidable (op.StaysIn s x y) := by
  cases op <;> unfold ArithOp.StaysIn <;> infer_instance

/-- The operation on the numbers themselves. -/
def ArithOp.result (op : ArithOp) (p q : ℚ) : ℚ :=
  match op with
  | .add => p + q
  | .sub => p - q
  | .mul => p * q
  | .div => p / q

theorem checkedI128_of_in {n : ℤ} (h : InI128 n) : ∃ u, checkedI128 n = some u ∧ u.toInt = n := by
  refine ⟨BitVec.ofInt 128 n, if_pos h, ?_⟩
  exact checkedI128_toInt (if_pos h)

/-- The operands of an aligned pair, and what each was lifted to. -/
theorem aligned_spec {a b : Value} {x y : ℤ} {s : UInt8} (h : aligned a b = some (x, y, s)) :
    ∃ u t u' t' m n, a.exactUnits = some (u, t) ∧ b.exactUnits = some (u', t') ∧ max t t' = s ∧
      lift s u t = some m ∧ lift s u' t' = some n ∧ m.toInt = x ∧ n.toInt = y := by
  unfold aligned at h
  cases ha : a.exactUnits with
  | none => simp [ha] at h
  | some p =>
    cases hb : b.exactUnits with
    | none => simp [ha, hb] at h
    | some q =>
      simp only [ha, hb, Option.bind_eq_bind, Option.bind_some] at h
      obtain ⟨m, hm, h⟩ := Option.bind_eq_some_iff.mp h
      obtain ⟨n, hn, h⟩ := Option.bind_eq_some_iff.mp h
      obtain ⟨hx, hy, rfl⟩ : m.toInt = x ∧ n.toInt = y ∧ max p.2 q.2 = s := by simpa using h
      exact ⟨p.1, p.2, q.1, q.2, m, n, rfl, rfl, rfl, hm, hn, hx, hy⟩

theorem aligned_exact {a b : Value} {x y : ℤ} {s : UInt8} (h : aligned a b = some (x, y, s)) :
    (x : ℚ) = a.exact * 10 ^ s.toNat ∧ (y : ℚ) = b.exact * 10 ^ s.toNat := by
  obtain ⟨u, t, u', t', m, n, ha, hb, rfl, hm, hn, rfl, rfl⟩ := aligned_spec h
  rw [Value.exact, Value.exact, ha, hb]
  constructor
  · exact lift_toInt (left_le_finer _ _) hm
  · exact lift_toInt (finer_comm t' t ▸ left_le_finer _ _) hn

theorem exactArith_of_aligned {a b : Value} {x y : ℤ} {s : UInt8} (h : aligned a b = some (x, y, s))
    (op : ArithOp) : exactArith op a b = (op.exact s x y).map (.decimal · s) := by
  obtain ⟨u, t, u', t', m, n, ha, hb, rfl, hm, hn, rfl, rfl⟩ := aligned_spec h
  unfold exactArith
  simp only [ha, hb, Option.bind_eq_bind, Option.bind_some, hm, hn]
  cases op.exact (max t t') m.toInt n.toInt <;> rfl

theorem comparable_iff_aligned (a b : Value) : Comparable a b ↔ (aligned a b).isSome := by
  have hcmp : cmpExact a b = (aligned a b).map fun p => compare p.1 p.2.1 := by
    unfold cmpExact aligned
    cases a.exactUnits with
    | none => rfl
    | some p =>
      cases b.exactUnits with
      | none => rfl
      | some q =>
        simp only [Option.bind_eq_bind, Option.bind_some]
        cases lift (max p.2 q.2) p.1 p.2 with
        | none => rfl
        | some m =>
          simp only [Option.bind_some]
          cases lift (max p.2 q.2) q.1 q.2 <;> rfl
  rw [Comparable, hcmp, Option.isSome_map]

theorem pow_of_lift {t s : UInt8} {u : ℤ} {m : BitVec 128} (h : lift t u s = some m) :
    10 ^ (t.toNat - s.toNat) < 2 ^ 127 := by
  unfold lift checkedPow10 at h
  by_contra hpow
  rw [if_neg hpow] at h
  cases h

theorem checkedPow10_of_lt {k : ℕ} (h : 10 ^ k < 2 ^ 127) : checkedPow10 k = some (10 ^ k) := by
  rw [checkedPow10, if_pos h]

theorem inI128_of_between {m n : ℤ} (h : InI128 n) (hm : 0 ≤ m ∧ m ≤ n ∨ n ≤ m ∧ m ≤ 0) : InI128 m := by
  obtain ⟨hlo, hhi⟩ := h
  rcases hm with hm | hm
  · exact ⟨by omega, by omega⟩
  · exact ⟨by omega, by omega⟩

theorem tdiv_between (m : ℤ) {n : ℤ} (hn : 0 < n) :
    0 ≤ m.tdiv n ∧ m.tdiv n ≤ m ∨ m ≤ m.tdiv n ∧ m.tdiv n ≤ 0 := by
  rcases le_total 0 m with hm | hm
  · rw [Int.tdiv_eq_ediv_of_nonneg hm]
    exact .inl ⟨Int.ediv_nonneg hm hn.le, Int.ediv_le_self n hm⟩
  · have hneg : 0 ≤ -m := by omega
    have hle := Int.ediv_le_self n hneg
    have hpos := Int.ediv_nonneg hneg hn.le
    rw [← Int.tdiv_eq_ediv_of_nonneg hneg, Int.neg_tdiv] at hle hpos
    exact .inr ⟨by omega, by omega⟩

/-- Without overflow the units are the result, cut at the scale of the operands. -/
theorem exact_of_staysIn {op : ArithOp} {s : UInt8} {x y : ℤ} {p q : ℚ} (h : op.StaysIn s x y)
    (hx : (x : ℚ) = p * 10 ^ s.toNat) (hy : (y : ℚ) = q * 10 ^ s.toNat) (hdiv : op = .div → y ≠ 0) :
    ∃ u, op.exact s x y = some u ∧ u.toInt = truncate (op.result p q * 10 ^ s.toNat) := by
  have hten : (10 : ℚ) ^ s.toNat ≠ 0 := by positivity
  cases op with
  | add =>
    obtain ⟨u, hu, hval⟩ := checkedI128_of_in h
    refine ⟨u, hu, ?_⟩
    have hsum : (p + q) * 10 ^ s.toNat = ((x + y : ℤ) : ℚ) := by
      rw [Int.cast_add, hx, hy, add_mul]
    rw [hval, ArithOp.result, hsum, truncate_intCast]
  | sub =>
    obtain ⟨u, hu, hval⟩ := checkedI128_of_in h
    refine ⟨u, hu, ?_⟩
    have hdiff : (p - q) * 10 ^ s.toNat = ((x - y : ℤ) : ℚ) := by
      rw [Int.cast_sub, hx, hy, sub_mul]
    rw [hval, ArithOp.result, hdiff, truncate_intCast]
  | mul =>
    obtain ⟨hpow, hprod⟩ := h
    obtain ⟨w, hw, hwval⟩ := checkedI128_of_in hprod
    have hfactor : (0 : ℤ) < 10 ^ s.toNat := by positivity
    obtain ⟨u, hu, hval⟩ := checkedI128_of_in (inI128_of_between hprod (tdiv_between (x * y) hfactor))
    have hproduct : p * q * 10 ^ s.toNat = ((x * y : ℤ) : ℚ) / ((10 ^ s.toNat : ℤ) : ℚ) := by
      rw [Int.cast_mul, hx, hy]
      push_cast
      field_simp
    refine ⟨u, ?_, ?_⟩
    · simp only [ArithOp.exact, hw, checkedPow10_of_lt hpow, hwval, Option.bind_eq_bind,
        Option.bind_some, hu]
    · rw [hval, ArithOp.result, hproduct, truncate_div]
  | div =>
    have hy0 := hdiv rfl
    obtain hzero | ⟨hpow, hdividend, hquotient⟩ := h
    · exact absurd hzero hy0
    · obtain ⟨w, hw, hwval⟩ := checkedI128_of_in hdividend
      obtain ⟨u, hu, hval⟩ := checkedI128_of_in hquotient
      have hq : q ≠ 0 := by
        rintro rfl
        rw [zero_mul] at hy
        exact hy0 (by exact_mod_cast hy)
      have hquot : p / q * 10 ^ s.toNat = ((x * 10 ^ s.toNat : ℤ) : ℚ) / y := by
        push_cast
        rw [hx, hy]
        field_simp
      refine ⟨u, ?_, ?_⟩
      · simp only [ArithOp.exact, if_neg hy0, hw, checkedPow10_of_lt hpow, hwval,
          Option.bind_eq_bind, Option.bind_some, hu]
      · rw [hval, ArithOp.result, hquot, truncate_div]

theorem ofDecimal_zero (s : UInt8) : (F64.ofDecimal 0 s).isZero = true := by
  rw [F64.ofDecimal, Int.natAbs_zero, F64.divMag_zero]
  rfl

theorem asNum_zero {b : Value} (hexact : b.exactUnits.isSome) (hzero : b.exact = 0) {f : F64}
    (hf : b.asNum = some f) : f.isZero = true := by
  have hunits : ∀ u s, b.exactUnits = some (u, s) → u = 0 := by
    intro u s hu
    rw [Value.exact, hu, div_eq_zero_iff] at hzero
    exact_mod_cast hzero.resolve_right (by positivity)
  cases b with
  | i64 n =>
    cases hf
    rw [hunits n.toInt 0 rfl]
    rfl
  | u64 n =>
    cases hf
    rw [hunits n.toNat 0 rfl]
    rfl
  | decimal units s =>
    cases hf
    rw [hunits units.toInt s rfl]
    exact ofDecimal_zero s
  | _ => cases hexact

/-- Dividing by zero gives nothing, exactly and by float. -/
theorem div_zero_none {a b : Value} {x : ℤ} {s : UInt8} (h : aligned a b = some (x, 0, s)) :
    checkedArith .div a b = none := by
  have hexact : exactArith .div a b = none := by
    rw [exactArith_of_aligned h, ArithOp.exact, if_pos rfl]
    rfl
  have hzero : b.exact = 0 := by
    have hy := (aligned_exact h).2
    rw [Int.cast_zero, eq_comm, mul_eq_zero] at hy
    exact hy.resolve_right (by positivity)
  obtain ⟨-, -, u, t, -, -, -, hunits, -⟩ := aligned_spec h
  rw [checkedArith, hexact, Option.none_or, floatArith]
  cases ha : a.asNum with
  | none => rfl
  | some f =>
    cases hb : b.asNum with
    | none => rfl
    | some g =>
      simp only [Option.bind_eq_bind, Option.bind_some, ArithOp.float, if_pos (asNum_zero (hunits ▸ rfl) hzero hb)]
      rfl

/-! ## Two spellings of the operands -/

/-- What is computed from the operands stays within 128 bits. -/
def Fits (op : ArithOp) (a b : Value) : Prop :=
  ∃ x y s, aligned a b = some (x, y, s) ∧ op.StaysIn s x y

def largerScale (a b : Value) : UInt8 :=
  match a.exactUnits, b.exactUnits with
  | some (_, s), some (_, t) => max s t
  | _, _ => 0

/-- Equal operands give equal results, and a sum, a difference or a product that can be written
at the larger scale of the operands is exact. -/
structure ArithLaw (op : ArithOp) (a b a' b' : Value) : Prop where
  congr : Option.Rel Eqv (checkedArith op a b) (checkedArith op a' b')
  exact : op ≠ .div → ∀ n : ℤ, InI128 n →
    op.result a.exact b.exact * 10 ^ (largerScale a b).toNat = n →
      ∃ r, checkedArith op a b = some r ∧ r.exactUnits.isSome ∧ r.exact = op.result a.exact b.exact

/-- The outcome without overflow. -/
theorem checkedArith_of_fits {op : ArithOp} {a b : Value} (h : Fits op a b) :
    (op = .div ∧ b.exact = 0 ∧ checkedArith op a b = none) ∨
      (op = .div → b.exact ≠ 0) ∧ ∃ u, checkedArith op a b = some (.decimal u (largerScale a b)) ∧
        u.toInt = truncate (op.result a.exact b.exact * 10 ^ (largerScale a b).toNat) := by
  obtain ⟨x, y, s, haligned, hin⟩ := h
  obtain ⟨hx, hy⟩ := aligned_exact haligned
  have hscale : largerScale a b = s := by
    obtain ⟨u, t, u', t', m, n, ha, hb, hs, -⟩ := aligned_spec haligned
    rw [largerScale, ha, hb]
    exact hs
  have hten : (10 : ℚ) ^ s.toNat ≠ 0 := by positivity
  by_cases hzero : op = .div ∧ y = 0
  · obtain ⟨rfl, rfl⟩ := hzero
    refine .inl ⟨rfl, ?_, div_zero_none haligned⟩
    rw [Int.cast_zero, eq_comm, mul_eq_zero] at hy
    exact hy.resolve_right hten
  · obtain ⟨u, hu, hval⟩ := exact_of_staysIn hin hx hy fun hd hy0 => hzero ⟨hd, hy0⟩
    refine .inr ⟨fun hd hb => hzero ⟨hd, ?_⟩, u, ?_, ?_⟩
    · rw [hb, zero_mul] at hy
      exact_mod_cast hy
    · rw [checkedArith, exactArith_of_aligned haligned, hu, hscale]
      rfl
    · rw [hscale, hval]

theorem exact_of_units {q : ℚ} {u : BitVec 128} {s : UInt8} (h : u.toInt = truncate (q * 10 ^ s.toNat)) :
    (Value.decimal u s).exact = cutAt s q := by
  rw [cutAt, ← h]
  rfl

theorem cutAt_of_whole {q : ℚ} {n : ℤ} {s : UInt8} (h : q * 10 ^ s.toNat = n) : cutAt s q = q := by
  rw [cutAt, h, truncate_intCast, ← h]
  exact mul_div_cancel_right₀ q (by positivity)

/-- A sum or a difference has no digits beyond the scale of its operands. -/
theorem cutAt_sum {op : ArithOp} {a b : Value} (h : Fits op a b) (hop : op = .add ∨ op = .sub) :
    cutAt (largerScale a b) (op.result a.exact b.exact) = op.result a.exact b.exact := by
  obtain ⟨x, y, s, haligned, -⟩ := h
  obtain ⟨hx, hy⟩ := aligned_exact haligned
  have hscale : largerScale a b = s := by
    obtain ⟨u, t, u', t', m, n, ha, hb, hs, -⟩ := aligned_spec haligned
    rw [largerScale, ha, hb]
    exact hs
  rw [hscale]
  rcases hop with rfl | rfl
  · apply cutAt_of_whole (n := x + y)
    rw [ArithOp.result, add_mul, ← hx, ← hy, Int.cast_add]
  · apply cutAt_of_whole (n := x - y)
    rw [ArithOp.result, sub_mul, ← hx, ← hy, Int.cast_sub]

/-- Units that fit at a finer scale are compared there exactly. -/
theorem comparable_decimals {u u' : BitVec 128} {s s' : UInt8} (hs : s ≤ s')
    (hpow : 10 ^ (s'.toNat - s.toNat) < 2 ^ 127)
    (hin : InI128 (u.toInt * 10 ^ (s'.toNat - s.toNat))) :
    Comparable (.decimal u s) (.decimal u' s') := by
  have hfiner : max s s' = s' := if_pos hs
  obtain ⟨m, hm, -⟩ := checkedI128_of_in hin
  have hu' : InI128 (u'.toInt * 1) := by
    rw [mul_one]
    exact ⟨u'.le_toInt, u'.toInt_lt⟩
  obtain ⟨n, hn, -⟩ := checkedI128_of_in hu'
  have hleft : lift (max s s') u.toInt s = some m := by
    rw [hfiner, lift, checkedPow10_of_lt hpow]
    exact hm
  have hright : lift (max s s') u'.toInt s' = some n := by
    rw [hfiner, lift, Nat.sub_self]
    exact hn
  rw [Comparable, cmpExact]
  simp only [Value.exactUnits, Option.bind_eq_bind, Option.bind_some, hleft, hright]
  rfl

theorem decimals_eqv {u u' : BitVec 128} {s s' : UInt8}
    (h : Comparable (.decimal u s) (.decimal u' s')) :
    Eqv (.decimal u s) (.decimal u' s') ↔ (Value.decimal u s).exact = (Value.decimal u' s').exact := by
  rw [Eqv, cmp_numbers rfl rfl, numeric_exact h, compare_eq_iff_eq]

theorem truncate_between (q : ℚ) (k : ℕ) :
    0 ≤ truncate q * k ∧ truncate q * k ≤ truncate (q * k) ∨
      truncate (q * k) ≤ truncate q * k ∧ truncate q * k ≤ 0 := by
  rcases le_total 0 q with hq | hq
  · obtain ⟨hpos, hle⟩ := truncate_scaled hq k
    exact .inl ⟨by positivity, hle⟩
  · obtain ⟨hpos, hle⟩ := truncate_scaled (neg_nonneg.mpr hq) k
    rw [neg_mul, truncate_neg, truncate_neg, neg_mul] at hle
    rw [truncate_neg] at hpos
    have hsign : 0 ≤ -truncate q * k := by positivity
    rw [neg_mul] at hsign
    exact .inr ⟨by omega, by omega⟩

theorem toNat_max (s t : UInt8) : (max s t).toNat = max s.toNat t.toNat := by
  change (if s ≤ t then t else s).toNat = _
  by_cases h : s ≤ t
  · rw [if_pos h, max_eq_right (UInt8.le_iff_toNat_le.mp h)]
  · have hle := UInt8.le_iff_toNat_le.mp ((UInt8.le_total s t).resolve_left h)
    rw [if_neg h, max_eq_left hle]

theorem pow_of_comparable {a b : Value} {u u' : ℤ} {s s' : UInt8} (h : Comparable a b)
    (ha : a.exactUnits = some (u, s)) (hb : b.exactUnits = some (u', s')) :
    10 ^ (s'.toNat - s.toNat) < 2 ^ 127 := by
  obtain ⟨⟨x, y, t⟩, haligned⟩ := Option.isSome_iff_exists.mp ((comparable_iff_aligned a b).mp h)
  obtain ⟨v, p, v', p', m, n, ha', hb', rfl, hm, -⟩ := aligned_spec haligned
  rw [ha] at ha'
  rw [hb] at hb'
  cases ha'
  cases hb'
  refine lt_of_le_of_lt (Nat.pow_le_pow_right (by decide) ?_) (pow_of_lift hm)
  rw [toNat_max]
  omega

/-- The two scales are no farther apart than those of the operands. -/
theorem pow_largerScale {a b a' b' : Value} (ha : Comparable a a') (hb : Comparable b b') :
    10 ^ ((largerScale a' b').toNat - (largerScale a b).toNat) < 2 ^ 127 := by
  obtain ⟨⟨_, _, _⟩, hleft⟩ := Option.isSome_iff_exists.mp ((comparable_iff_aligned a a').mp ha)
  obtain ⟨⟨_, _, _⟩, hright⟩ := Option.isSome_iff_exists.mp ((comparable_iff_aligned b b').mp hb)
  obtain ⟨u, p, u', p', -, -, hau, hau', -⟩ := aligned_spec hleft
  obtain ⟨w, q, w', q', -, -, hbw, hbw', -⟩ := aligned_spec hright
  have hpowA := pow_of_comparable ha hau hau'
  have hpowB := pow_of_comparable hb hbw hbw'
  have hscale : largerScale a b = max p q := by rw [largerScale, hau, hbw]
  have hscale' : largerScale a' b' = max p' q' := by rw [largerScale, hau', hbw']
  rw [hscale, hscale', toNat_max, toNat_max]
  by_cases hpq : q'.toNat ≤ p'.toNat
  · exact lt_of_le_of_lt (Nat.pow_le_pow_right (by decide) (by omega)) hpowA
  · exact lt_of_le_of_lt (Nat.pow_le_pow_right (by decide) (by omega)) hpowB

/-- Two cuts of one number are compared exactly. -/
theorem comparable_cuts {q : ℚ} {u u' : BitVec 128} {s s' : UInt8} (hs : s ≤ s')
    (hpow : 10 ^ (s'.toNat - s.toNat) < 2 ^ 127) (hu : u.toInt = truncate (q * 10 ^ s.toNat))
    (hu' : u'.toInt = truncate (q * 10 ^ s'.toNat)) : Comparable (.decimal u s) (.decimal u' s') := by
  have hsplit : q * 10 ^ s'.toNat = q * 10 ^ s.toNat * ((10 ^ (s'.toNat - s.toNat) : ℕ) : ℚ) := by
    have hle := UInt8.le_iff_toNat_le.mp hs
    push_cast
    rw [mul_assoc, ← pow_add, Nat.add_sub_cancel' hle]
  have hbetween := truncate_between (q * 10 ^ s.toNat) (10 ^ (s'.toNat - s.toNat))
  rw [← hsplit, ← hu, ← hu'] at hbetween
  push_cast at hbetween
  exact comparable_decimals hs hpow (inI128_of_between ⟨u'.le_toInt, u'.toInt_lt⟩ hbetween)

theorem exact_of_eqv {a a' : Value} (hc : Comparable a a') (h : Eqv a a') : a.exact = a'.exact := by
  obtain ⟨hrank, hrank'⟩ := rank_of_comparable hc
  rwa [Eqv, cmp_numbers hrank hrank', numeric_exact hc, compare_eq_iff_eq] at h

/-- Without overflow, equal operands give equal results exactly when cutting the result at the
scale of the one pair and of the other gives one number. For sums and differences it always
does. -/
theorem arithLaw_iff {op : ArithOp} {a b a' b' : Value} (hfits : Fits op a b) (hfits' : Fits op a' b')
    (hca : Comparable a a') (hcb : Comparable b b') (ha : Eqv a a') (hb : Eqv b b') :
    ArithLaw op a b a' b' ↔ (op = .mul ∨ op = .div →
      cutAt (largerScale a b) (op.result a.exact b.exact) =
        cutAt (largerScale a' b') (op.result a.exact b.exact)) := by
  have hexactA := exact_of_eqv hca ha
  have hexactB := exact_of_eqv hcb hb
  rcases checkedArith_of_fits hfits with ⟨rfl, hzero, hnone⟩ | ⟨hne, u, hu, hval⟩
  · have hnone' : checkedArith .div a' b' = none := by
      rcases checkedArith_of_fits hfits' with ⟨-, -, hnone'⟩ | ⟨hne', -⟩
      · exact hnone'
      · exact absurd (hexactB ▸ hzero) (hne' rfl)
    have hcut : ∀ s, cutAt s (ArithOp.div.result a.exact b.exact) = 0 := by
      intro s
      rw [hzero, ArithOp.result, div_zero]
      exact cutAt_of_whole (n := 0) (by simp)
    constructor
    · intro _ _
      rw [hcut, hcut]
    · intro _
      refine ⟨?_, fun hop => absurd rfl hop⟩
      rw [hnone, hnone']
      exact .none
  · rcases checkedArith_of_fits hfits' with ⟨rfl, hzero, -⟩ | ⟨-, u', hu', hval'⟩
    · exact absurd (hexactB.trans hzero) (hne rfl)
    · rw [← hexactA, ← hexactB] at hval'
      have hcomparable : Comparable (.decimal u (largerScale a b)) (.decimal u' (largerScale a' b')) := by
        rcases UInt8.le_total (largerScale a b) (largerScale a' b') with hle | hle
        · exact comparable_cuts hle (pow_largerScale hca hcb) hval hval'
        · rw [comparable_swap]
          exact comparable_cuts hle (pow_largerScale ((comparable_swap a a').mp hca)
            ((comparable_swap b b').mp hcb)) hval' hval
      have heqv := decimals_eqv hcomparable
      rw [exact_of_units hval, exact_of_units hval'] at heqv
      constructor
      · intro hlaw _
        have hrel := hlaw.congr
        rw [hu, hu'] at hrel
        cases hrel with
        | some hrel => exact heqv.mp hrel
      · intro hcut
        constructor
        · rw [hu, hu']
          apply Option.Rel.some
          rw [heqv]
          by_cases hop : op = .mul ∨ op = .div
          · exact hcut hop
          · have hsum : op = .add ∨ op = .sub := by
              cases op <;> simp_all
            have hright := cutAt_sum hfits' hsum
            rw [← hexactA, ← hexactB] at hright
            rw [cutAt_sum hfits hsum, hright]
        · intro _ n _ hn
          refine ⟨_, hu, rfl, ?_⟩
          rw [exact_of_units hval, cutAt_of_whole hn]

/-! ## Halves and zeros -/

/-- 2.50 times 4.00 and 2.5 times 4. -/
theorem tens_agree : ArithLaw .mul (.decimal 250 2) (.decimal 400 2) (.decimal 25 1) (.i64 4) := by
  have hfits : Fits .mul (.decimal 250 2) (.decimal 400 2) := ⟨250, 400, 2, by decide, by decide⟩
  have hfits' : Fits .mul (.decimal 25 1) (.i64 4) := ⟨25, 40, 1, by decide, by decide⟩
  refine (arithLaw_iff hfits hfits' (by decide) (by decide) (by decide) (by decide)).mpr
    fun _ => ?_
  have hten : ArithOp.mul.result (Value.decimal 250 2).exact (Value.decimal 400 2).exact = 10 := by
    change (250 : ℤ) / (10 : ℚ) ^ 2 * ((400 : ℤ) / (10 : ℚ) ^ 2) = 10
    norm_num
  have hscale : largerScale (.decimal 250 2) (.decimal 400 2) = 2 := by decide
  have hscale' : largerScale (.decimal 25 1) (.i64 4) = 1 := by decide
  have htwo : (10 : ℚ) * 10 ^ (2 : UInt8).toNat = (1000 : ℤ) := by
    rw [show (2 : UInt8).toNat = 2 from rfl]
    norm_num
  have hone : (10 : ℚ) * 10 ^ (1 : UInt8).toNat = (100 : ℤ) := by
    rw [show (1 : UInt8).toNat = 1 from rfl]
    norm_num
  rw [hten, hscale, hscale', cutAt_of_whole htwo, cutAt_of_whole hone]

/-- 0.5 times 0.5 is 0.2, and 0.50 times 0.50 is 0.25. -/
theorem halves_disagree : Eqv (.decimal 5 1) (.decimal 50 2) ∧
    ¬ ArithLaw .mul (.decimal 5 1) (.decimal 5 1) (.decimal 50 2) (.decimal 50 2) := by
  refine ⟨by decide, fun h => ?_⟩
  have hrel := h.congr
  rw [show checkedArith .mul (.decimal 5 1) (.decimal 5 1) = some (.decimal 2 1) from rfl,
    show checkedArith .mul (.decimal 50 2) (.decimal 50 2) = some (.decimal 25 2) from rfl] at hrel
  cases hrel with
  | some hrel => exact absurd hrel (by decide)

end Adabt.Core
