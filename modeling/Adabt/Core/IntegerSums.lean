import Adabt.Core.Arith
import Adabt.Core.Rounding

/-! # Sums of integers in double precision

A double that holds an integer adds exactly, as long as the sum has at most 53
bits. -/

set_option autoImplicit false

namespace Adabt.Core.F64

/-! ## Sign and magnitude -/

theorem ofMag_toNat (negative : Bool) {m : ℕ} (h : m < signBit) :
    (ofMag negative m).bits.toNat = if negative then signBit + m else m := by
  have hs : signBit = 2 ^ 63 := rfl
  rw [ofMag, UInt64.toNat_ofNat']
  apply Nat.mod_eq_of_lt
  split_ifs <;> omega

theorem mag_ofMag (negative : Bool) {m : ℕ} (h : m < signBit) : (ofMag negative m).mag = m := by
  rw [mag, ofMag_toNat negative h]
  split_ifs
  · rw [Nat.add_mod_left, Nat.mod_eq_of_lt h]
  · exact Nat.mod_eq_of_lt h

theorem negative_ofMag (sign : Bool) {m : ℕ} (h : m < signBit) :
    (ofMag sign m).negative = sign := by
  rw [negative, ofMag_toNat sign h]
  cases sign with
  | true => simp
  | false => simpa using h

theorem lt_signBit {m : ℕ} (h : m < infinity) : m < signBit := h.trans (by decide)

theorem isFinite_ofMag (sign : Bool) {m : ℕ} (h : m < infinity) :
    (ofMag sign m).isFinite = true := by
  rw [isFinite, mag_ofMag sign (lt_signBit h)]
  exact decide_eq_true h

theorem isNan_of_finite {f : F64} (h : f.isFinite = true) : f.isNan = false := by
  have hm : f.mag < infinity := by simpa [isFinite] using h
  exact decide_eq_false (Nat.not_lt.mpr hm.le)

theorem isInf_of_finite {f : F64} (h : f.isFinite = true) : f.isInf = false := by
  have hm : f.mag < infinity := by simpa [isFinite] using h
  exact decide_eq_false hm.ne

theorem signedFraction_pos (f : F64) : 0 < f.signedFraction.2 := fraction_pos f.mag

/-! ## Integers -/

/-- A finite double that holds this integer. -/
structure IsInt (f : F64) (k : ℤ) : Prop where
  finite : f.isFinite = true
  value : f.signedFraction.1 = k * f.signedFraction.2

/-- Within 53 bits. -/
def Small (k : ℤ) : Prop := k.natAbs ≤ 2 ^ 53

theorem holds_of_small {n : ℕ} (h : n ≤ 2 ^ 53) : Holds n := by
  rcases h.lt_or_eq with hlt | rfl
  · have hlog : Nat.log2 n - 52 = 0 := by
      rcases Nat.eq_zero_or_pos n with rfl | hpos
      · rfl
      · have := (Nat.log2_lt hpos.ne').mpr hlt
        omega
    rw [Holds, hlog]
    exact one_dvd n
  · decide

theorem log2_of_small {n : ℕ} (h : n ≤ 2 ^ 53) : Nat.log2 n ≤ 53 := by
  rcases Nat.eq_zero_or_pos n with rfl | hpos
  · exact Nat.zero_le _
  · have := (Nat.log2_lt hpos.ne').mpr (show n < 2 ^ 54 by omega)
    omega

theorem roundMag_small {n : ℕ} (h : n ≤ 2 ^ 53) :
    roundMag n 1 < infinity ∧ (fraction (roundMag n 1)).1 = n * (fraction (roundMag n 1)).2 := by
  have hlog := log2_of_small h
  rcases Nat.eq_zero_or_pos n with rfl | hpos
  · decide +kernel
  · have hv := magValue_roundMag hpos.ne' (holds_of_small h) (by omega)
    refine ⟨(roundMag_normal hpos.ne' (by omega)).2, ?_⟩
    have hd : ((fraction (roundMag n 1)).2 : ℚ) ≠ 0 := by
      exact_mod_cast (fraction_pos (roundMag n 1)).ne'
    rw [magValue, div_eq_iff hd] at hv
    exact_mod_cast hv

theorem signedFraction_ofMag (sign : Bool) {m : ℕ} (h : m < infinity) :
    (ofMag sign m).signedFraction =
      (if sign then -((fraction m).1 : ℤ) else (fraction m).1, (fraction m).2) := by
  rw [signedFraction, mag_ofMag sign (lt_signBit h), negative_ofMag sign (lt_signBit h)]

theorem isInt_ofInt {k : ℤ} (h : Small k) : (ofInt k).IsInt k := by
  obtain ⟨hlt, hv⟩ := roundMag_small h
  constructor
  · exact isFinite_ofMag _ hlt
  · rw [ofInt, signedFraction_ofMag _ hlt]
    by_cases hk : k < 0
    · rw [decide_eq_true hk]
      simp only [if_true, hv]
      push_cast
      rw [show |k| = -k from abs_of_neg hk]
      ring
    · rw [decide_eq_false hk]
      simp only [Bool.false_eq_true, if_false, hv]
      push_cast
      rw [abs_of_nonneg (not_lt.mp hk)]

/-- A double that holds a positive integer has no sign, and one that holds a negative one has. -/
theorem IsInt.negative {f : F64} {k : ℤ} (h : f.IsInt k) (hk : k ≠ 0) :
    f.negative = decide (k < 0) := by
  have hv := h.value
  have hd : (0 : ℤ) < f.signedFraction.2 := by exact_mod_cast signedFraction_pos f
  have hx : (0 : ℤ) ≤ (fraction f.mag).1 := Int.natCast_nonneg _
  have hfirst : f.signedFraction.1 =
      if f.negative then -((fraction f.mag).1 : ℤ) else (fraction f.mag).1 := rfl
  rw [hfirst] at hv
  cases hn : f.negative with
  | true =>
    rw [hn, if_pos rfl] at hv
    symm
    apply decide_eq_true
    by_contra hle
    have : 0 < k * f.signedFraction.2 := mul_pos (by omega) hd
    omega
  | false =>
    rw [hn] at hv
    symm
    apply decide_eq_false
    intro hlt
    have : k * f.signedFraction.2 < 0 := mul_neg_of_neg_of_pos hlt hd
    simp only [Bool.false_eq_true, if_false] at hv
    omega

/-- Integers add exactly. -/
theorem ofInt_add {j k : ℤ} {f : F64} (hf : f.IsInt k) (hj : Small j) :
    (ofInt j).add f = ofInt (j + k) := by
  have hi := isInt_ofInt hj
  have hda := signedFraction_pos (ofInt j)
  have hdb := signedFraction_pos f
  rw [add, isNan_of_finite hi.finite, isNan_of_finite hf.finite, isInf_of_finite hi.finite,
    isInf_of_finite hf.finite]
  simp only [Bool.or_self, Bool.false_eq_true, if_false, addFinite]
  rw [hi.value, hf.value]
  have hnum : j * (ofInt j).signedFraction.2 * f.signedFraction.2 +
      k * f.signedFraction.2 * (ofInt j).signedFraction.2 =
      (j + k) * ((ofInt j).signedFraction.2 * f.signedFraction.2 : ℕ) := by
    push_cast
    ring
  rw [hnum]
  have hd : 0 < (ofInt j).signedFraction.2 * f.signedFraction.2 := Nat.mul_pos hda hdb
  generalize (ofInt j).signedFraction.2 * f.signedFraction.2 = d at hd
  have hd0 : (d : ℤ) ≠ 0 := by exact_mod_cast hd.ne'
  by_cases hzero : j + k = 0
  · rw [hzero, zero_mul, if_pos rfl]
    have hsign : ((ofInt j).negative && f.negative) = false := by
      by_cases hj0 : j = 0
      · subst hj0
        rfl
      · rw [hi.negative hj0, hf.negative (by omega)]
        by_cases hneg : j < 0
        · simp [show ¬k < 0 by omega]
        · simp [hneg]
    rw [hsign]
    rfl
  · have hnz : (j + k) * (d : ℤ) ≠ 0 := mul_ne_zero hzero hd0
    rw [if_neg hnz, ofInt]
    have hsign : (j + k) * (d : ℤ) < 0 ↔ j + k < 0 := by
      constructor
      · intro h
        by_contra hn
        exact absurd h (not_lt.mpr (mul_nonneg (by omega) (Int.natCast_nonneg d)))
      · exact fun h => mul_neg_of_neg_of_pos h (by exact_mod_cast hd)
    rw [decide_eq_decide.mpr hsign]
    congr 1
    apply roundMag_ratio hd.ne' one_ne_zero
    rw [Int.natAbs_mul, Int.natAbs_natCast]
    push_cast
    field_simp

/-! ## Signs and whole numbers -/

theorem lt_of_finite {f : F64} (h : f.isFinite = true) : f.mag < infinity := by
  simpa [isFinite] using h

theorem IsInt.neg {f : F64} {k : ℤ} (h : f.IsInt k) : f.neg.IsInt (-k) := by
  have hlt := lt_of_finite h.finite
  have hv := h.value
  constructor
  · exact isFinite_ofMag _ hlt
  · rw [F64.neg, signedFraction_ofMag _ hlt]
    simp only [signedFraction] at hv ⊢
    cases hn : f.negative with
    | true =>
      simp only [hn, if_true] at hv
      simp only [Bool.not_true, Bool.false_eq_true, if_false]
      linarith
    | false =>
      simp only [hn, Bool.false_eq_true, if_false] at hv
      simp only [Bool.not_false, if_true]
      linarith

/-- Integers subtract exactly. -/
theorem ofInt_sub {j k : ℤ} {f : F64} (hf : f.IsInt k) (hj : Small j) :
    (ofInt j).sub f = ofInt (j - k) := ofInt_add hf.neg hj

theorem IsInt.abs {f : F64} {k : ℤ} (h : f.IsInt k) : f.abs.IsInt k.natAbs := by
  have hlt := lt_of_finite h.finite
  have hd : (0 : ℤ) < f.signedFraction.2 := by exact_mod_cast signedFraction_pos f
  have hv := congrArg Int.natAbs h.value
  have hnum : f.signedFraction.1.natAbs = (fraction f.mag).1 := by
    rw [signedFraction]
    split_ifs
    · rw [Int.natAbs_neg, Int.natAbs_natCast]
    · rw [Int.natAbs_natCast]
  rw [hnum, Int.natAbs_mul, Int.natAbs_natCast] at hv
  constructor
  · exact isFinite_ofMag _ hlt
  · rw [F64.abs, signedFraction_ofMag _ hlt]
    simp only [Bool.false_eq_true, if_false]
    exact_mod_cast hv

/-- A finite double without a fractional part. -/
def isWhole (f : F64) : Bool := (fraction f.mag).1 % (fraction f.mag).2 = 0

/-- `>=`, which nothing is of a NaN. -/
def atLeast (a b : F64) : Bool := !a.isNan && !b.isNan && decide (b.canon ≤ a.canon)

theorem roundMag_large {n : ℕ} (h : 2 ^ 53 ≤ n) : 1076 * hidden ≤ roundMag n 1 := by
  have hn : n ≠ 0 := by
    rintro rfl
    exact absurd h (by decide)
  have hlog : 53 ≤ Nat.log2 n := (Nat.le_log2 hn).mpr h
  obtain ⟨h₁, h₂⟩ := log2_bounds hn
  have hlast : Int.log 2 ((n : ℚ) / (1 : ℕ)) = Nat.log2 n := by
    rw [Nat.cast_one, div_one]
    exact log_eq (by exact_mod_cast Nat.pos_of_ne_zero hn) h₁ h₂
  rw [roundMag_eq hn, lastPlace_eq hn one_ne_zero, hlast, max_eq_left (by omega)]
  dsimp only
  have hp := shifted_pos n one_pos ((Nat.log2 n : Int) - 52)
  have hr := shifted_ratio n 1 ((Nat.log2 n : Int) - 52)
  generalize shifted n 1 ((Nat.log2 n : Int) - 52) = s at hp hr ⊢
  have hpq : (0 : ℚ) < s.2 := by exact_mod_cast hp
  have hs : hidden ≤ s.1 / s.2 := by
    rw [Nat.le_div_iff_mul_le hp, ← Nat.cast_le (α := ℚ)]
    push_cast
    rw [← le_div_iff₀ hpq, hr, le_div_iff₀ (by positivity), Nat.cast_one, div_one]
    apply le_of_eq_of_le _ h₁
    rw [show ((hidden : ℕ) : ℚ) = 2 ^ (52 : Int) by norm_num [hidden], ← zpow_add₀ two_ne_zero]
    congr 1
    ring
  have hround := le_roundHalfEven s.1 s.2
  have he : ((Nat.log2 n : Int) - 52 + 1074).toNat = Nat.log2 n + 1022 := by omega
  rw [he]
  apply le_min
  · have hmul : 1075 * hidden ≤ (Nat.log2 n + 1022) * hidden := Nat.mul_le_mul_right _ (by omega)
    omega
  · decide

theorem canon_ofMag {m : ℕ} (h : m ≤ infinity) : (ofMag false m).canon = m + signBit := by
  have hs : infinity < signBit := by decide
  have hbits : (ofMag false m).bits.toNat = m := ofMag_toNat false (by omega)
  have hmod : m % signBit = m := Nat.mod_eq_of_lt (by omega)
  have hnan : (ofMag false m).isNan = false := by
    rw [isNan, hbits, hmod]
    exact decide_eq_false (by omega)
  have hcanonical : (ofMag false m).canonical = m := by
    rw [canonical, hnan, isZero, hbits, hmod]
    by_cases hz : m = 0
    · simp [hz]
    · simp [hz]
  rw [canon, hcanonical, if_neg (by omega)]

theorem roundMag_le_infinity (n d : ℕ) : roundMag n d ≤ infinity := by
  rw [roundMag]
  split_ifs
  · exact Nat.zero_le _
  · exact min_le_right _ _

/-- An integer that does not fit 53 bits is no less than the first such. -/
theorem atLeast_ofInt {n : ℕ} (h : 2 ^ 53 ≤ n) :
    (ofInt n).atLeast (ofInt (2 ^ 53)) = true := by
  have hn : ofInt n = ofMag false (roundMag n 1) := by
    rw [ofInt, decide_eq_false (by omega), Int.natAbs_natCast]
  have hlimit : ofInt (2 ^ 53) = ofMag false (1076 * hidden) := by decide +kernel
  have hle := roundMag_le_infinity n 1
  have hlarge := roundMag_large h
  have hnan : ∀ m ≤ infinity, (ofMag false m).isNan = false := by
    intro m hm
    have hs : infinity < signBit := by decide
    rw [isNan, ofMag_toNat false (by omega)]
    apply decide_eq_false
    rw [Nat.not_lt]
    exact (Nat.mod_le _ _).trans hm
  rw [atLeast, hn, hlimit, hnan _ hle, hnan _ (by decide), canon_ofMag hle, canon_ofMag (by decide)]
  simpa using hlarge

/-! ## Sums -/

/-- The integer a double holds, if it holds one. -/
def intOf (f : F64) : ℤ := f.signedFraction.1 / f.signedFraction.2

theorem isInt_of_whole {f : F64} (hf : f.isFinite = true) (hw : f.isWhole = true) :
    f.IsInt f.intOf := by
  have hmod : (fraction f.mag).1 % (fraction f.mag).2 = 0 := by simpa [isWhole] using hw
  have hdvd : (f.signedFraction.2 : ℤ) ∣ f.signedFraction.1 := by
    have hd : ((fraction f.mag).2 : ℤ) ∣ (fraction f.mag).1 :=
      Int.natCast_dvd_natCast.mpr (Nat.dvd_of_mod_eq_zero hmod)
    simp only [signedFraction]
    split_ifs
    · exact hd.neg_right
    · exact hd
  exact ⟨hf, (Int.ediv_mul_cancel hdvd).symm⟩

/-- What a walk adds up, from zero. -/
def sumOf (l : List F64) : F64 := l.foldl add ⟨0⟩

def magnitude (l : List F64) : ℕ := (l.map fun f => f.intOf.natAbs).sum

/-- Integers whose magnitudes add up within 53 bits. -/
structure Exact (l : List F64) : Prop where
  ints : ∀ f ∈ l, f.IsInt f.intOf
  small : magnitude l ≤ 2 ^ 53

theorem foldl_add {l : List F64} (h : ∀ f ∈ l, f.IsInt f.intOf) {j : ℤ}
    (hs : j.natAbs + magnitude l ≤ 2 ^ 53) :
    l.foldl add (ofInt j) = ofInt (j + (l.map intOf).sum) := by
  induction l generalizing j with
  | nil => rw [List.foldl_nil, List.map_nil, List.sum_nil, add_zero]
  | cons f l ih =>
    rw [magnitude, List.map_cons, List.sum_cons, ← magnitude] at hs
    have hadd := Int.natAbs_add_le j f.intOf
    rw [List.foldl_cons, ofInt_add (h f List.mem_cons_self) (by unfold Small; omega),
      ih (fun g hg => h g (List.mem_cons_of_mem _ hg)) (by omega), List.map_cons, List.sum_cons,
      add_assoc]

theorem Exact.sumOf_eq {l : List F64} (h : Exact l) : sumOf l = ofInt (l.map intOf).sum := by
  have hfold := foldl_add h.ints (j := 0) (by simpa using h.small)
  rwa [zero_add] at hfold

theorem Exact.perm {l l' : List F64} (h : Exact l) (hp : l.Perm l') : Exact l' := by
  constructor
  · exact fun f hf => h.ints f (hp.mem_iff.mpr hf)
  · rw [magnitude, ← (hp.map fun f => f.intOf.natAbs).sum_eq]
    exact h.small

theorem Exact.sublist {l l' : List F64} (h : Exact l) (hs : l'.Sublist l) : Exact l' := by
  constructor
  · exact fun f hf => h.ints f (hs.subset hf)
  · exact ((hs.map fun f => f.intOf.natAbs).sum_le_sum fun _ _ => Nat.zero_le _).trans h.small

/-- An exact sum does not depend on the order. -/
theorem Exact.sumOf_perm {l l' : List F64} (h : Exact l) (hp : l.Perm l') :
    sumOf l = sumOf l' := by
  rw [h.sumOf_eq, (h.perm hp).sumOf_eq, (hp.map intOf).sum_eq]

end Adabt.Core.F64
