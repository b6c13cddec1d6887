import Adabt.Core.Float64
import Mathlib.Algebra.Order.Field.Rat
import Mathlib.Algebra.Order.Field.Power
import Mathlib.Data.Int.Log
import Mathlib.Data.Nat.Log
import Mathlib.Data.Rat.Floor
import Mathlib.Tactic.FieldSimp
import Mathlib.Tactic.Linarith
import Mathlib.Tactic.NormNum
import Mathlib.Tactic.Positivity
import Mathlib.Tactic.Ring

/-! # What rounding depends on

The double nearest to a fraction is a function of the number the fraction
stands for, and it is that number where a double holds it. -/

set_option autoImplicit false

namespace Adabt.Core.F64

/-- The number finite magnitude bits stand for. -/
def magValue (m : ℕ) : ℚ := (fraction m).1 / (fraction m).2

/-- At most 53 significant bits. -/
def Holds (n : ℕ) : Prop := 2 ^ (Nat.log2 n - 52) ∣ n

instance (n : ℕ) : Decidable (Holds n) := inferInstanceAs (Decidable (_ ∣ _))

/-! ## Scaling by a power of two -/

theorem shifted_pos (num : ℕ) {den : ℕ} (hd : 0 < den) (e : Int) : 0 < (shifted num den e).2 := by
  unfold shifted
  split_ifs
  · positivity
  · exact hd

theorem shifted_ratio (num den : ℕ) (e : Int) :
    ((shifted num den e).1 : ℚ) / (shifted num den e).2 = num / den / 2 ^ e := by
  unfold shifted
  by_cases h : 0 ≤ e
  · rw [if_pos h]
    have hk : (2 : ℚ) ^ e.toNat = 2 ^ e := by rw [← zpow_natCast, Int.toNat_of_nonneg h]
    push_cast
    rw [hk, div_div]
  · rw [if_neg h]
    have hk : (2 : ℚ) ^ (-e).toNat = (2 ^ e)⁻¹ := by
      rw [← zpow_natCast, Int.toNat_of_nonneg (by omega), zpow_neg]
    push_cast
    rw [hk, div_div, mul_comm (den : ℚ), ← div_div, div_eq_mul_inv (num : ℚ) (2 ^ e)]

theorem roundHalfEven_mul (n d : ℕ) {c : ℕ} (hc : 0 < c) :
    roundHalfEven (n * c) (d * c) = roundHalfEven n d := by
  unfold roundHalfEven
  have hlt : d * c < 2 * (n % d * c) ↔ d < 2 * (n % d) := by
    rw [← mul_assoc]
    exact Nat.mul_lt_mul_right hc
  have heq : 2 * (n % d * c) = d * c ↔ 2 * (n % d) = d := by
    rw [← mul_assoc]
    exact Nat.mul_left_inj hc.ne'
  simp only [Nat.mul_div_mul_right n d hc, Nat.mul_mod_mul_right, hlt, heq]

theorem roundHalfEven_ratio {n d n' d' : ℕ} (hd : 0 < d) (hd' : 0 < d')
    (h : n * d' = n' * d) : roundHalfEven n d = roundHalfEven n' d' := by
  rw [← roundHalfEven_mul n d hd', ← roundHalfEven_mul n' d' hd, h, mul_comm d d']

theorem roundHalfEven_exact (n : ℕ) {d : ℕ} (hd : 0 < d) : roundHalfEven (n * d) d = n := by
  have h0 : 0 ≠ d := hd.ne
  simp [roundHalfEven, Nat.mul_div_cancel n hd, h0]

theorem roundHalfEven_le (n d : ℕ) : roundHalfEven n d ≤ n / d + 1 := by
  unfold roundHalfEven
  dsimp only
  split_ifs <;> omega

theorem le_roundHalfEven (n d : ℕ) : n / d ≤ roundHalfEven n d := by
  unfold roundHalfEven
  dsimp only
  split_ifs <;> omega

/-! ## The exponent -/

/-- The exponent of the last place of 53, before subnormals are cut off. -/
def lastPlace (num den : ℕ) : Int :=
  let e1 : Int := (Nat.log2 num : Int) - Nat.log2 den - 53
  let low := shifted num den e1
  if 2 * hidden ≤ low.1 / low.2 then e1 + 1 else e1

theorem roundMag_eq {num : ℕ} (h : num ≠ 0) (den : ℕ) :
    roundMag num den =
      let e := max (lastPlace num den) (-1074)
      let s := shifted num den e
      min ((e + 1074).toNat * hidden + roundHalfEven s.1 s.2) infinity := by
  rw [roundMag, if_neg h]
  rfl

theorem log2_bounds {n : ℕ} (h : n ≠ 0) :
    (2 : ℚ) ^ (Nat.log2 n : Int) ≤ n ∧ (n : ℚ) < 2 ^ ((Nat.log2 n : Int) + 1) := by
  constructor
  · rw [zpow_natCast]
    exact_mod_cast Nat.log2_self_le h
  · rw [← Nat.cast_one, ← Nat.cast_add, zpow_natCast]
    exact_mod_cast Nat.lt_log2_self

theorem log_eq {q : ℚ} {e : Int} (hq : 0 < q) (h₁ : 2 ^ e ≤ q) (h₂ : q < 2 ^ (e + 1)) :
    Int.log 2 q = e := by
  have hl := (Int.zpow_le_iff_le_log one_lt_two hq).mp (by simpa using h₁)
  have hu := (Int.lt_zpow_iff_log_lt one_lt_two hq).mp (by simpa using h₂)
  omega

theorem lastPlace_eq {num den : ℕ} (hn : num ≠ 0) (hd : den ≠ 0) :
    lastPlace num den = Int.log 2 ((num : ℚ) / den) - 52 := by
  obtain ⟨hn1, hn2⟩ := log2_bounds hn
  obtain ⟨hd1, hd2⟩ := log2_bounds hd
  have hdq : (0 : ℚ) < den := by exact_mod_cast Nat.pos_of_ne_zero hd
  have hq : (0 : ℚ) < (num : ℚ) / den :=
    div_pos (by exact_mod_cast Nat.pos_of_ne_zero hn) hdq
  set a : Int := (Nat.log2 num : Int)
  set b : Int := (Nat.log2 den : Int)
  have hlow : (2 : ℚ) ^ (a - b - 1) ≤ num / den := by
    rw [le_div_iff₀ hdq]
    calc (2 : ℚ) ^ (a - b - 1) * den ≤ 2 ^ (a - b - 1) * 2 ^ (b + 1) := by gcongr
      _ = 2 ^ a := by
        rw [← zpow_add₀ two_ne_zero]
        congr 1
        ring
      _ ≤ num := hn1
  have hhigh : (num : ℚ) / den < 2 ^ (a - b + 1) := by
    rw [div_lt_iff₀ hdq]
    calc (num : ℚ) < 2 ^ (a + 1) := hn2
      _ = 2 ^ (a - b + 1) * 2 ^ b := by
        rw [← zpow_add₀ two_ne_zero]
        congr 1
        ring
      _ ≤ 2 ^ (a - b + 1) * den := by gcongr
  -- The test asks whether the quotient reaches the upper half of its octaves.
  have htest : 2 * hidden ≤ (shifted num den (a - b - 53)).1 / (shifted num den (a - b - 53)).2 ↔
      (2 : ℚ) ^ (a - b) ≤ num / den := by
    have hp := shifted_pos num (Nat.pos_of_ne_zero hd) (a - b - 53)
    have hpq : (0 : ℚ) < (shifted num den (a - b - 53)).2 := by exact_mod_cast hp
    rw [Nat.le_div_iff_mul_le hp, ← Nat.cast_le (α := ℚ)]
    push_cast
    rw [← le_div_iff₀ hpq, shifted_ratio, le_div_iff₀ (by positivity)]
    have hs : (2 : ℚ) * (hidden : ℚ) * 2 ^ (a - b - 53) = 2 ^ (a - b) := by
      rw [show (2 : ℚ) * (hidden : ℚ) = 2 ^ (53 : Int) by norm_num [hidden],
        ← zpow_add₀ two_ne_zero]
      congr 1
      ring
    rw [hs]
  unfold lastPlace
  by_cases h : (2 : ℚ) ^ (a - b) ≤ num / den
  · rw [if_pos (htest.mpr h), log_eq hq h hhigh]
    ring
  · rw [if_neg (htest.not.mpr h), log_eq hq hlow (by simpa using not_le.mp h)]
    ring

/-- Equal fractions round alike. -/
theorem roundMag_ratio {n d n' d' : ℕ} (hd : d ≠ 0) (hd' : d' ≠ 0)
    (h : (n : ℚ) / d = n' / d') : roundMag n d = roundMag n' d' := by
  have hdq : (d : ℚ) ≠ 0 := by exact_mod_cast hd
  have hdq' : (d' : ℚ) ≠ 0 := by exact_mod_cast hd'
  by_cases hn : n = 0
  · have hn' : n' = 0 := by
      rw [hn, Nat.cast_zero, zero_div, eq_comm, div_eq_zero_iff] at h
      exact_mod_cast h.resolve_right hdq'
    rw [roundMag, if_pos hn, roundMag, if_pos hn']
  · have hn' : n' ≠ 0 := by
      rintro rfl
      rw [Nat.cast_zero, zero_div, div_eq_zero_iff] at h
      exact hn (by exact_mod_cast h.resolve_right hdq)
    rw [roundMag_eq hn, roundMag_eq hn', lastPlace_eq hn hd, lastPlace_eq hn' hd', h]
    have hp := fun e => shifted_pos n (Nat.pos_of_ne_zero hd) e
    have hp' := fun e => shifted_pos n' (Nat.pos_of_ne_zero hd') e
    have he : ∀ e, roundHalfEven (shifted n d e).1 (shifted n d e).2 =
        roundHalfEven (shifted n' d' e).1 (shifted n' d' e).2 := by
      intro e
      apply roundHalfEven_ratio (hp e) (hp' e)
      have hr : ((shifted n d e).1 : ℚ) / (shifted n d e).2 =
          (shifted n' d' e).1 / (shifted n' d' e).2 := by
        rw [shifted_ratio, shifted_ratio, h]
      rw [div_eq_div_iff (by exact_mod_cast (hp e).ne') (by exact_mod_cast (hp' e).ne')] at hr
      exact_mod_cast hr
    dsimp only
    rw [he]

/-! ## Doubles round to themselves -/

theorem fraction_pos (m : ℕ) : 0 < (fraction m).2 := by
  unfold fraction
  dsimp only
  split_ifs <;> positivity

theorem magValue_normal {m : ℕ} (h : hidden ≤ m) :
    magValue m = (hidden + m % hidden : ℕ) * (2 : ℚ) ^ ((m / hidden : ℕ) - 1075 : Int) := by
  have hE : m / hidden ≠ 0 := (Nat.div_pos h (by decide)).ne'
  unfold magValue fraction
  rw [if_neg hE]
  dsimp only
  by_cases he : 0 ≤ ((m / hidden : ℕ) : Int) - 1075
  · rw [if_pos (by exact_mod_cast he)]
    have hk : (2 : ℚ) ^ (((m / hidden : ℕ) : Int) - 1075).toNat =
        2 ^ (((m / hidden : ℕ) : Int) - 1075) := by
      rw [← zpow_natCast, Int.toNat_of_nonneg he]
    push_cast at hk ⊢
    rw [div_one, ← hk]
  · rw [if_neg (by exact_mod_cast he)]
    have hk : (2 : ℚ) ^ (-(((m / hidden : ℕ) : Int) - 1075)).toNat =
        (2 ^ (((m / hidden : ℕ) : Int) - 1075))⁻¹ := by
      rw [← zpow_natCast, Int.toNat_of_nonneg (by omega), zpow_neg]
    push_cast at hk ⊢
    rw [hk, div_inv_eq_mul]

theorem lastPlace_of_value {n d M : ℕ} {e : Int} (hd : d ≠ 0) (h₁ : hidden ≤ M)
    (h₂ : M < 2 * hidden) (h : (n : ℚ) / d = M * 2 ^ e) : n ≠ 0 ∧ lastPlace n d = e := by
  have hM : (0 : ℚ) < M := by exact_mod_cast (by decide : 0 < hidden).trans_le h₁
  have hq : (0 : ℚ) < (n : ℚ) / d := by
    rw [h]
    positivity
  have hn : n ≠ 0 := by
    rintro rfl
    simp at hq
  have hlow : (2 : ℚ) ^ (52 + e) ≤ n / d := by
    rw [h, zpow_add₀ two_ne_zero]
    gcongr
    have hM' : ((2 ^ 52 : ℕ) : ℚ) ≤ M := by exact_mod_cast h₁
    exact_mod_cast hM'
  have hhigh : (n : ℚ) / d < 2 ^ (53 + e) := by
    rw [h, zpow_add₀ two_ne_zero]
    gcongr
    have hM' : (M : ℚ) < ((2 ^ 53 : ℕ) : ℚ) := by exact_mod_cast h₂
    exact_mod_cast hM'
  constructor
  · exact hn
  · rw [lastPlace_eq hn hd, log_eq hq hlow (by rwa [add_right_comm])]
    ring

/-- A fraction that normal magnitude bits stand for rounds to those bits. -/
theorem roundMag_of_value {n d m : ℕ} (hd : d ≠ 0) (h₁ : hidden ≤ m) (h₂ : m < infinity)
    (h : (n : ℚ) / d = magValue m) : roundMag n d = m := by
  rw [magValue_normal h₁] at h
  have hmod : m % hidden < hidden := Nat.mod_lt m (by decide)
  have hE : 1 ≤ m / hidden := Nat.div_pos h₁ (by decide)
  obtain ⟨hn, hl⟩ := lastPlace_of_value hd (by omega) (by omega) h
  rw [roundMag_eq hn, hl]
  have hmax : max (((m / hidden : ℕ) : Int) - 1075) (-1074) = ((m / hidden : ℕ) : Int) - 1075 := by
    omega
  have hp := shifted_pos n (Nat.pos_of_ne_zero hd) (((m / hidden : ℕ) : Int) - 1075)
  have hr := shifted_ratio n d (((m / hidden : ℕ) : Int) - 1075)
  have hs : (shifted n d (((m / hidden : ℕ) : Int) - 1075)).1 =
      (hidden + m % hidden) * (shifted n d (((m / hidden : ℕ) : Int) - 1075)).2 := by
    rw [h, mul_div_assoc, div_self (by positivity), mul_one,
      div_eq_iff (by exact_mod_cast hp.ne')] at hr
    exact_mod_cast hr
  have ht : (((m / hidden : ℕ) : Int) - 1075 + 1074).toNat = m / hidden - 1 := by omega
  have hm : (m / hidden - 1) * hidden + (hidden + m % hidden) = m := by
    rw [← add_assoc, ← Nat.succ_mul, Nat.succ_eq_add_one, Nat.sub_add_cancel hE, mul_comm]
    exact Nat.div_add_mod m hidden
  dsimp only
  rw [hmax, hs, roundHalfEven_exact _ hp, ht, hm]
  exact min_eq_left h₂.le

/-! ## Integers and powers of ten -/

/-- The significand of an integer that a double holds. -/
theorem significand {n : ℕ} (hn : n ≠ 0) (h : Holds n) :
    ∃ M, hidden ≤ M ∧ M < 2 * hidden ∧ (n : ℚ) = M * 2 ^ ((Nat.log2 n : Int) - 52) := by
  have h₁ := Nat.log2_self_le hn
  have h₂ := Nat.lt_log2_self (n := n)
  set k := Nat.log2 n with hk
  by_cases hle : k ≤ 52
  · have hs : (2 : ℕ) ^ k * 2 ^ (52 - k) = hidden := by
      rw [← pow_add, Nat.add_sub_cancel' hle]
      rfl
    refine ⟨n * 2 ^ (52 - k), ?_, ?_, ?_⟩
    · rw [← hs]
      exact Nat.mul_le_mul_right _ h₁
    · rw [← hs, ← mul_assoc, ← Nat.pow_succ']
      exact Nat.mul_lt_mul_of_pos_right h₂ (by positivity)
    · push_cast
      rw [mul_assoc, ← zpow_natCast, ← zpow_add₀ two_ne_zero, Nat.cast_sub hle]
      simp
  · obtain ⟨M, hM⟩ := h
    rw [← hk] at hM
    have hs : (2 : ℕ) ^ k = 2 ^ (k - 52) * hidden := by
      rw [show hidden = 2 ^ 52 from rfl, ← pow_add, Nat.sub_add_cancel (by omega)]
    have hpos : 0 < (2 : ℕ) ^ (k - 52) := by positivity
    refine ⟨M, ?_, ?_, ?_⟩
    · rw [hM, hs] at h₁
      exact Nat.le_of_mul_le_mul_left h₁ hpos
    · rw [pow_succ, hM, hs, mul_assoc] at h₂
      rw [mul_comm]
      exact Nat.lt_of_mul_lt_mul_left h₂
    · have hz : (2 : ℚ) ^ ((k : Int) - 52) = 2 ^ (k - 52) := by
        rw [← zpow_natCast, Nat.cast_sub (by omega)]
        rfl
      rw [hz, hM]
      push_cast
      ring

theorem magValue_roundMag {n : ℕ} (hn : n ≠ 0) (h : Holds n) (hb : Nat.log2 n ≤ 1023) :
    magValue (roundMag n 1) = n := by
  obtain ⟨M, h₁, h₂, hM⟩ := significand hn h
  have hpos : 0 < hidden := by decide
  have hdiv : ((Nat.log2 n + 1022) * hidden + M) / hidden = Nat.log2 n + 1023 := by
    apply Nat.div_eq_of_lt_le
    · rw [show Nat.log2 n + 1023 = Nat.log2 n + 1022 + 1 from rfl, Nat.succ_mul]
      omega
    · rw [show Nat.log2 n + 1023 + 1 = Nat.log2 n + 1022 + 2 from rfl,
        Nat.add_mul (Nat.log2 n + 1022) 2]
      omega
  have hmod : hidden + ((Nat.log2 n + 1022) * hidden + M) % hidden = M := by
    rw [Nat.mul_add_mod_self_right, Nat.mod_eq_sub_mod h₁, Nat.mod_eq_of_lt (by omega)]
    omega
  have hm : hidden ≤ (Nat.log2 n + 1022) * hidden + M := by omega
  have hv : magValue ((Nat.log2 n + 1022) * hidden + M) = n := by
    have he : ((Nat.log2 n + 1023 : ℕ) : Int) - 1075 = Nat.log2 n - 52 := by omega
    rw [magValue_normal hm, hdiv, hmod, he, hM]
  have hlt : (Nat.log2 n + 1022) * hidden + M < infinity := by
    calc (Nat.log2 n + 1022) * hidden + M < 2045 * hidden + 2 * hidden := by
          apply Nat.add_lt_add_of_le_of_lt _ h₂
          exact Nat.mul_le_mul_right _ (by omega)
      _ = infinity := by decide
  rw [roundMag_of_value one_ne_zero hm hlt (by rw [hv, Nat.cast_one, div_one]), hv]

theorem roundMag_normal {n : ℕ} (hn : n ≠ 0) (hb : Nat.log2 n ≤ 1000) :
    hidden ≤ roundMag n 1 ∧ roundMag n 1 < infinity := by
  have hq : (0 : ℚ) < n := by exact_mod_cast Nat.pos_of_ne_zero hn
  obtain ⟨h₁, h₂⟩ := log2_bounds hn
  have hlog : Int.log 2 ((n : ℚ) / (1 : ℕ)) = Nat.log2 n := by
    rw [Nat.cast_one, div_one]
    exact log_eq hq h₁ h₂
  rw [roundMag_eq hn, lastPlace_eq hn one_ne_zero, hlog, max_eq_left (by omega)]
  dsimp only
  have hp := shifted_pos n one_pos ((Nat.log2 n : Int) - 52)
  have hr := shifted_ratio n 1 ((Nat.log2 n : Int) - 52)
  generalize shifted n 1 ((Nat.log2 n : Int) - 52) = s at hp hr ⊢
  have hpq : (0 : ℚ) < s.2 := by exact_mod_cast hp
  have hs : s.1 / s.2 < 2 * hidden := by
    rw [Nat.div_lt_iff_lt_mul hp, ← Nat.cast_lt (α := ℚ)]
    push_cast
    rw [← div_lt_iff₀ hpq, hr, div_lt_iff₀ (by positivity), Nat.cast_one, div_one]
    apply h₂.trans_eq
    rw [show (2 : ℚ) * (hidden : ℚ) = 2 ^ (53 : Int) by norm_num [hidden], ← zpow_add₀ two_ne_zero]
    congr 1
    ring
  have hround := roundHalfEven_le s.1 s.2
  have he : ((Nat.log2 n : Int) - 52 + 1074).toNat = Nat.log2 n + 1022 := by omega
  rw [he]
  constructor
  · apply le_min
    · rw [Nat.add_mul]
      have : hidden ≤ 1022 * hidden := by decide
      omega
    · decide
  · apply (min_le_left _ _).trans_lt
    calc (Nat.log2 n + 1022) * hidden + roundHalfEven s.1 s.2 ≤ 2022 * hidden + 2 * hidden := by
          apply Nat.add_le_add
          · exact Nat.mul_le_mul_right _ (by omega)
          · omega
      _ < infinity := by decide

theorem divMag_ratio {a b : ℕ} (hb : (fraction b).1 ≠ 0) :
    ((fraction a).2 * (fraction b).1 : ℕ) ≠ 0 ∧
      ((fraction a).1 * (fraction b).2 : ℕ) / ((fraction a).2 * (fraction b).1 : ℕ) =
        magValue a / magValue b := by
  constructor
  · exact mul_ne_zero (fraction_pos a).ne' hb
  · unfold magValue
    push_cast
    rw [div_div_div_eq]

theorem powi10_exact : ∀ k < 23, (fraction (powi10 (UInt8.ofNat k))).1 =
    10 ^ k * (fraction (powi10 (UInt8.ofNat k))).2 := by decide

theorem magValue_powi10 {s : UInt8} (h : s.toNat ≤ 22) : magValue (powi10 s) = 10 ^ s.toNat := by
  have hk := powi10_exact s.toNat (by omega)
  rw [UInt8.ofNat_toNat] at hk
  unfold magValue
  rw [hk]
  push_cast
  rw [mul_div_assoc, div_self (by exact_mod_cast (fraction_pos (powi10 s)).ne'), mul_one]

theorem fraction_ne_zero {m : ℕ} (h : magValue m ≠ 0) : (fraction m).1 ≠ 0 := by
  intro h0
  rw [magValue, h0, Nat.cast_zero, zero_div] at h
  exact h rfl

/-- With both parts exact the quotient is rounded once. -/
theorem divMag_exact {n : ℕ} {s : UInt8} (hn : n ≠ 0) (h : Holds n) (hb : Nat.log2 n ≤ 1023)
    (hs : s.toNat ≤ 22) : divMag (roundMag n 1) (powi10 s) = roundMag n (10 ^ s.toNat) := by
  have hp : magValue (powi10 s) ≠ 0 := by
    rw [magValue_powi10 hs]
    positivity
  obtain ⟨hd, hr⟩ := divMag_ratio (a := roundMag n 1) (fraction_ne_zero hp)
  rw [divMag]
  apply roundMag_ratio hd (by positivity)
  rw [hr, magValue_roundMag hn h hb, magValue_powi10 hs]
  push_cast
  rfl

/-- Dividing by one, as a decimal without places is. -/
theorem divMag_one {m : ℕ} (h₁ : hidden ≤ m) (h₂ : m < infinity) : divMag m (powi10 0) = m := by
  have hv : magValue (powi10 0) = 1 := by
    rw [magValue_powi10 (by decide)]
    rfl
  obtain ⟨hd, hr⟩ := divMag_ratio (a := m) (b := powi10 0) (fraction_ne_zero (by rw [hv]; decide))
  rw [divMag]
  apply roundMag_of_value hd h₁ h₂
  rw [hr, hv, div_one]

theorem divMag_zero (b : ℕ) : divMag (roundMag 0 1) b = 0 := by
  have h : (fraction (roundMag 0 1)).1 = 0 := by decide
  rw [divMag, h, zero_mul, roundMag, if_pos rfl]

end Adabt.Core.F64
