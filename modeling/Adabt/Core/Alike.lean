import Adabt.Core.IntegerSums
import Adabt.Core.ValueOrder

/-! # Numbers that are spelled alike

Equal values need not compute alike: an integer, a decimal and a float take
different paths through the arithmetic. Those of one scale and one double do, up to
the sign of a zero. -/

set_option autoImplicit false

namespace Adabt.Core

namespace F64

/-- The same double, up to the sign of a zero and the payload of a NaN. -/
def Same (f g : F64) : Prop :=
  f = g ∨ (f.isZero = true ∧ g.isZero = true) ∨ (f.isNan = true ∧ g.isNan = true)

theorem Same.refl (f : F64) : f.Same f := .inl rfl

variable {f g f' g' : F64}

theorem isZero_iff : f.isZero = true ↔ f.mag = 0 := by rw [isZero, mag, decide_eq_true_eq]

theorem isNan_iff : f.isNan = true ↔ infinity < f.mag := by rw [isNan, mag, decide_eq_true_eq]

theorem Same.isNan_eq (h : f.Same g) : f.isNan = g.isNan := by
  rcases h with rfl | ⟨hf, hg⟩ | ⟨hf, hg⟩
  · rfl
  · rw [isZero_iff] at hf hg
    have hzero : ∀ e : F64, e.mag = 0 → e.isNan = false := fun e he => by
      rw [Bool.eq_false_iff, ne_eq, isNan_iff, he]
      decide
    rw [hzero f hf, hzero g hg]
  · rw [hf, hg]

/-- But for NaNs, they are of one magnitude. -/
theorem Same.mag_eq (h : f.Same g) (hf : f.isNan = false) : f.mag = g.mag := by
  rcases h with rfl | ⟨hf, hg⟩ | ⟨hnan, -⟩
  · rfl
  · rw [isZero_iff.mp hf, isZero_iff.mp hg]
  · rw [hf] at hnan
    cases hnan

theorem Same.canon_eq (h : f.Same g) : f.canon = g.canon := by
  have hcanonical : f.canonical = g.canonical := by
    have hnan := h.isNan_eq
    rcases h with rfl | ⟨hf, hg⟩ | ⟨hf, hg⟩
    · rfl
    · rw [canonical, canonical, hnan, hf, hg]
      rfl
    · rw [canonical, canonical, hf, hg]
      rfl
  rw [canon, canon, hcanonical]

/-- Zeros stand for zero, and other doubles that are the same for one number. -/
theorem Same.signedFraction_eq (h : f.Same g) (hf : f.isNan = false) :
    f.signedFraction = g.signedFraction := by
  rcases h with rfl | ⟨hf, hg⟩ | ⟨hnan, -⟩
  · rfl
  · have hzero : ∀ e : F64, e.isZero = true → e.signedFraction = (0, 2 ^ 1074) := by
      intro e he
      rw [signedFraction, isZero_iff.mp he]
      cases e.negative <;> rfl
    rw [hzero f hf, hzero g hg]
  · rw [hf] at hnan
    cases hnan

/-- The sign differs only between zeros. -/
theorem Same.negative_eq (h : f.Same g) (hf : f.isNan = false) (hz : f.mag ≠ 0) :
    f.negative = g.negative := by
  rcases h with rfl | ⟨hzero, -⟩ | ⟨hnan, -⟩
  · rfl
  · exact absurd (isZero_iff.mp hzero) hz
  · rw [hf] at hnan
    cases hnan

theorem same_zero (s s' : Bool) : (ofMag s 0).Same (ofMag s' 0) :=
  .inr (.inl ⟨isZero_iff.mpr (mag_ofMag _ (by decide)), isZero_iff.mpr (mag_ofMag _ (by decide))⟩)

theorem same_addFinite (hf : f.Same f') (hg : g.Same g') (hnf : f.isNan = false)
    (hng : g.isNan = false) : (addFinite f g).Same (addFinite f' g') := by
  simp only [addFinite, hf.signedFraction_eq hnf, hg.signedFraction_eq hng]
  split_ifs
  · exact same_zero _ _
  · exact .refl _

theorem Same.isInf_eq (hf : f.Same f') (hnf : f.isNan = false) : f.isInf = f'.isInf := by
  simp only [isInf, hf.mag_eq hnf]

theorem Same.isZero_eq (h : f.Same g) : f.isZero = g.isZero := by
  rcases h with rfl | ⟨hf, hg⟩ | ⟨hf, hg⟩
  · rfl
  · rw [hf, hg]
  · have hnot : ∀ e : F64, e.isNan = true → e.isZero = false := fun e he => by
      rw [Bool.eq_false_iff, ne_eq, isZero_iff]
      exact Nat.ne_of_gt (Nat.zero_lt_of_lt (isNan_iff.mp he))
    rw [hnot f hf, hnot g hg]

theorem Same.isFinite_eq (h : f.Same g) : f.isFinite = g.isFinite := by
  have hnan := h.isNan_eq
  cases hf : f.isNan with
  | false => simp only [isFinite, h.mag_eq hf]
  | true =>
    have hnot : ∀ e : F64, e.isNan = true → e.isFinite = false := fun e he =>
      decide_eq_false (Nat.not_lt.mpr (isNan_iff.mp he).le)
    rw [hnot f hf, hnot g (hnan ▸ hf)]

/-- An infinity is the same as itself only. -/
theorem eq_of_inf (hf : f.Same f') (hnf : f.isNan = false) (hinf : f.isInf = true) : f = f' := by
  rcases hf with rfl | ⟨hzero, -⟩ | ⟨hnan, -⟩
  · rfl
  · rw [isInf, isZero_iff.mp hzero] at hinf
    exact absurd hinf (by decide)
  · rw [hnf] at hnan
    cases hnan

theorem same_add (hf : f.Same f') (hg : g.Same g') : (f.add g).Same (f'.add g') := by
  rw [add, add, ← hf.isNan_eq, ← hg.isNan_eq]
  cases hnf : f.isNan with
  | true =>
    simp only [Bool.true_or, if_true]
    exact .refl _
  | false =>
    cases hng : g.isNan with
    | true =>
      simp only [Bool.or_true, if_true]
      exact .refl _
    | false =>
      simp only [Bool.or_self, Bool.false_eq_true, if_false, ← hf.isInf_eq hnf,
        ← hg.isInf_eq hng]
      cases hif : f.isInf with
      | true =>
        obtain rfl := eq_of_inf hf hnf hif
        cases hig : g.isInf with
        | true =>
          obtain rfl := eq_of_inf hg hng hig
          exact .refl _
        | false =>
          simp only [Bool.false_and, Bool.false_eq_true, if_false, if_true]
          exact .refl _
      | false =>
        simp only [Bool.false_eq_true, if_false]
        cases hig : g.isInf with
        | true =>
          obtain rfl := eq_of_inf hg hng hig
          simp only [if_true]
          exact .refl _
        | false =>
          simp only [Bool.false_eq_true, if_false]
          exact same_addFinite hf hg hnf hng

theorem mag_lt (f : F64) : f.mag < signBit := Nat.mod_lt _ (by decide)

theorem neg_isNan (f : F64) : f.neg.isNan = f.isNan := by
  rw [Bool.eq_iff_iff, isNan_iff, isNan_iff, neg, mag_ofMag _ f.mag_lt]

theorem same_neg (hf : f.Same f') : f.neg.Same f'.neg := by
  rcases hf with rfl | ⟨hz, hz'⟩ | ⟨hn, hn'⟩
  · exact .refl _
  · rw [neg, neg, isZero_iff.mp hz, isZero_iff.mp hz']
    exact same_zero _ _
  · exact .inr (.inr ⟨by rwa [neg_isNan], by rwa [neg_isNan]⟩)

theorem same_sub (hf : f.Same f') (hg : g.Same g') : (f.sub g).Same (f'.sub g') :=
  same_add hf (same_neg hg)

theorem roundMag_zero (d : ℕ) : roundMag 0 d = 0 := by rw [roundMag, if_pos rfl]

theorem fraction_zero : fraction 0 = (0, 2 ^ 1074) := rfl

theorem mulMag_zero_left (m : ℕ) : mulMag 0 m = 0 := by
  rw [mulMag, fraction_zero, Nat.zero_mul, roundMag_zero]

theorem mulMag_zero_right (m : ℕ) : mulMag m 0 = 0 := by
  rw [mulMag, fraction_zero, Nat.mul_zero, roundMag_zero]

theorem divMag_zero_left (m : ℕ) : divMag 0 m = 0 := by
  rw [divMag, fraction_zero, Nat.zero_mul, roundMag_zero]

theorem same_mul (hf : f.Same f') (hg : g.Same g') : (f.mul g).Same (f'.mul g') := by
  simp only [mul, ← hf.isNan_eq, ← hg.isNan_eq]
  cases hnf : f.isNan with
  | true =>
    simp only [Bool.true_or, if_true]
    exact .refl _
  | false =>
    cases hng : g.isNan with
    | true =>
      simp only [Bool.or_true, if_true]
      exact .refl _
    | false =>
      simp only [Bool.or_self, Bool.false_eq_true, if_false, ← hf.isInf_eq hnf,
        ← hg.isInf_eq hng, ← hf.isZero_eq, ← hg.isZero_eq, ← hf.mag_eq hnf,
        ← hg.mag_eq hng]
      -- with no zero on either side the signs are those of the same doubles
      by_cases hz : f.mag = 0
      · have hzero : f.isZero = true := isZero_iff.mpr hz
        simp only [hzero, hz, mulMag_zero_left, Bool.true_or, if_true]
        split_ifs
        · exact .refl _
        · exact same_zero _ _
      · by_cases hz' : g.mag = 0
        · have hzero : g.isZero = true := isZero_iff.mpr hz'
          simp only [hzero, hz', mulMag_zero_right, Bool.or_true, if_true]
          split_ifs
          · exact .refl _
          · exact same_zero _ _
        · rw [hf.negative_eq hnf hz, hg.negative_eq hng hz']
          exact .refl _

/-- A divisor that is zero has been refused before. -/
theorem same_div (hf : f.Same f') (hg : g.Same g') (hz : g.isZero = false) :
    (f.div g).Same (f'.div g') := by
  simp only [div, ← hf.isNan_eq, ← hg.isNan_eq]
  cases hnf : f.isNan with
  | true =>
    simp only [Bool.true_or, if_true]
    exact .refl _
  | false =>
    cases hng : g.isNan with
    | true =>
      simp only [Bool.or_true, if_true]
      exact .refl _
    | false =>
      have hg' : g.mag ≠ 0 := fun h => by
        rw [isZero_iff.mpr h] at hz
        cases hz
      rw [← hg.negative_eq hng hg']
      simp only [Bool.or_self, Bool.false_eq_true, if_false, ← hf.isInf_eq hnf,
        ← hg.isInf_eq hng, ← hg.isZero_eq, hz, ← hf.mag_eq hnf, ← hg.mag_eq hng]
      by_cases hzf : f.mag = 0
      · have hfin : f.isInf = false := by
          rw [Bool.eq_false_iff, isInf, hzf]
          decide
        simp only [hfin, hzf, divMag_zero_left, Bool.false_eq_true, if_false]
        split_ifs
        · exact same_zero _ _
        · exact same_zero _ _
      · rw [hf.negative_eq hnf hzf]
        exact .refl _

end F64

theorem float_same (op : ArithOp) {x y x' y' : F64} (hx : x.Same x') (hy : y.Same y') :
    Option.Rel F64.Same (op.float x y) (op.float x' y') := by
  cases op with
  | add => exact .some (F64.same_add hx hy)
  | sub => exact .some (F64.same_sub hx hy)
  | mul => exact .some (F64.same_mul hx hy)
  | div =>
    rw [ArithOp.float, ArithOp.float, ← hy.isZero_eq]
    split_ifs with hz
    · exact .none
    · exact .some (F64.same_div hx hy (Bool.eq_false_iff.mpr hz))

namespace Value

/-- The same value, or numbers of the same units, scale and double. -/
def Alike (v w : Value) : Prop :=
  v = w ∨ v.rank = 2 ∧ w.rank = 2 ∧ v.exactUnits = w.exactUnits ∧
    Option.Rel F64.Same v.asNum w.asNum

theorem Alike.refl (v : Value) : v.Alike v := .inl rfl

variable {a b a' b' : Value}

theorem Alike.rank_eq (h : a.Alike b) : a.rank = b.rank := by
  rcases h with rfl | ⟨ha, hb, -⟩
  · rfl
  · rw [ha, hb]

theorem Alike.units_eq (h : a.Alike b) : a.exactUnits = b.exactUnits := by
  rcases h with rfl | ⟨-, -, hunits, -⟩
  · rfl
  · exact hunits

theorem Alike.asNum_same (h : a.Alike b) : Option.Rel F64.Same a.asNum b.asNum := by
  rcases h with rfl | ⟨-, -, -, hnum⟩
  · cases a.asNum with
    | none => exact .none
    | some f => exact .some (.refl f)
  · exact hnum

theorem Alike.numKey_eq (h : a.Alike b) : a.numKey = b.numKey := by
  have hnum := h.asNum_same
  rw [numKey, numKey]
  generalize a.asNum = x at hnum
  generalize b.asNum = y at hnum
  cases hnum with
  | none => rfl
  | some hsame => exact hsame.canon_eq

/-- Other values than numbers are only alike to themselves. -/
theorem Alike.eq_of_rank (h : a.Alike b) (hr : a.rank ≠ 2) : a = b := by
  rcases h with rfl | ⟨ha, -⟩
  · rfl
  · exact absurd ha hr

/-- Values that are alike compare alike. -/
theorem cmp_alike (ha : a.Alike a') (hb : b.Alike b') : a.cmp b = a'.cmp b' := by
  by_cases hr : a.rank = b.rank
  · by_cases hnum : a.rank = 2
    · have hexact : cmpExact a b = cmpExact a' b' := by
        rw [cmpExact, cmpExact, ha.units_eq, hb.units_eq]
      rw [cmp_numbers hnum (hr ▸ hnum), cmp_numbers (ha.rank_eq ▸ hnum) (hb.rank_eq ▸ hr ▸ hnum),
        cmpNumeric, cmpNumeric, hexact, ha.numKey_eq, hb.numKey_eq]
    · rw [ha.eq_of_rank hnum, hb.eq_of_rank (hr ▸ hnum)]
  · have hr' : a'.rank ≠ b'.rank := by rwa [← ha.rank_eq, ← hb.rank_eq]
    rw [cmp_of_rank_ne hr, cmp_of_rank_ne hr', ha.rank_eq, hb.rank_eq]

theorem isNull_of_number (h : a.rank = 2) : a.isNull = false := by
  cases a with
  | null => cases h
  | _ => rfl

theorem Alike.isNull_eq (h : a.Alike b) : a.isNull = b.isNull := by
  rcases h with rfl | ⟨ha, hb, -⟩
  · rfl
  · rw [isNull_of_number ha, isNull_of_number hb]

/-- Every value compares with the one as it does with the other. -/
def Interchangeable (v w : Value) : Prop := v.isNull = w.isNull ∧ ∀ u, v.cmp u = w.cmp u

theorem Alike.interchangeable (h : a.Alike b) : a.Interchangeable b :=
  ⟨h.isNull_eq, fun u => cmp_alike h (.refl u)⟩

theorem Interchangeable.cmp_eq (ha : a.Interchangeable a') (hb : b.Interchangeable b') :
    a.cmp b = a'.cmp b' := by
  rw [ha.2 b, cmp_swap a' b, hb.2 a', ← cmp_swap a' b']

theorem Interchangeable.eqv (h : a.Interchangeable b) : a.Eqv b := (h.2 b).trans (cmp_self b)

theorem exactArith_alike (op : ArithOp) (ha : a.Alike a') (hb : b.Alike b') :
    exactArith op a b = exactArith op a' b' := by
  rw [exactArith, exactArith, ha.units_eq, hb.units_eq]

theorem floatArith_alike (op : ArithOp) (ha : a.Alike a') (hb : b.Alike b') :
    Option.Rel Alike (floatArith op a b) (floatArith op a' b') := by
  have hx := ha.asNum_same
  have hy := hb.asNum_same
  rw [floatArith, floatArith]
  generalize a.asNum = x at hx
  generalize a'.asNum = x' at hx
  generalize b.asNum = y at hy
  generalize b'.asNum = y' at hy
  cases hx with
  | none => exact .none
  | @some x x' hx =>
    cases hy with
    | none => exact .none
    | @some y y' hy =>
      have hr := float_same op hx hy
      simp only [Option.bind_eq_bind, Option.bind_some]
      generalize op.float x y = r at hr
      generalize op.float x' y' = r' at hr
      cases hr with
      | none => exact .none
      | @some r r' hr =>
        simp only [Option.bind_some, hr.isFinite_eq]
        split_ifs
        · exact .some (.inr ⟨rfl, rfl, rfl, .some hr⟩)
        · exact .none

/-- Values that are alike compute alike. -/
theorem checkedArith_alike (op : ArithOp) (ha : a.Alike a') (hb : b.Alike b') :
    Option.Rel Alike (checkedArith op a b) (checkedArith op a' b') := by
  rw [checkedArith, checkedArith, exactArith_alike op ha hb]
  cases exactArith op a' b' with
  | some v => exact .some (.refl v)
  | none => exact floatArith_alike op ha hb

end Value

end Adabt.Core
