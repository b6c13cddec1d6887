import Adabt.Core.Value
import Adabt.Library.Orders
import Mathlib.Data.Rat.Defs
import Mathlib.Algebra.Order.Field.Rat
import Mathlib.Algebra.Order.Field.Basic
import Mathlib.Tactic.Positivity

/-! # When values are totally ordered

Two numbers are compared exactly when both are exact and rescaling them fits,
and as floats otherwise. Which of the two it is depends on the pair, so the
order is total on values whose numbers agree with each other on both readings. -/

set_option autoImplicit false

namespace Adabt.Core.Value
open Adabt.Library
open Std (OrientedCmp TransCmp)

/-! ## Exact and float readings -/

/-- The number an exact numeric stands for. -/
def exact (v : Value) : ℚ :=
  match v.exactUnits with
  | some (u, s) => u / 10 ^ s.toNat
  | none => 0

/-- The pair is compared without going through a float. -/
def Comparable (a b : Value) : Prop := (cmpExact a b).isSome

instance (a b : Value) : Decidable (Comparable a b) :=
  inferInstanceAs (Decidable ((cmpExact a b).isSome = true))

theorem checkedI128_toInt {n : Int} {x : BitVec 128} (h : checkedI128 n = some x) : x.toInt = n := by
  unfold checkedI128 at h
  by_cases hn : -(2 ^ 127) ≤ n ∧ n < 2 ^ 127
  · rw [if_pos hn] at h
    rw [← Option.some.inj h, BitVec.toInt_ofInt]
    exact Int.bmod_eq_of_le (by omega) (by omega)
  · rw [if_neg hn] at h
    exact absurd h (by simp)

theorem lift_toInt {target s : UInt8} {u : Int} {x : BitVec 128} (hs : s ≤ target)
    (h : lift target u s = some x) : (x.toInt : ℚ) = u / 10 ^ s.toNat * 10 ^ target.toNat := by
  unfold lift checkedPow10 at h
  by_cases hp : 10 ^ (target.toNat - s.toNat) < 2 ^ 127
  · rw [if_pos hp] at h
    have hx : x.toInt = u * 10 ^ (target.toNat - s.toNat) := checkedI128_toInt h
    have hl : s.toNat ≤ target.toNat := UInt8.le_iff_toNat_le.mp hs
    have he : (10 : ℚ) ^ target.toNat = 10 ^ s.toNat * 10 ^ (target.toNat - s.toNat) := by
      rw [← pow_add, Nat.add_sub_cancel' hl]
    rw [hx, he, ← mul_assoc, div_mul_cancel₀ _ (by positivity)]
    push_cast
    rfl
  · rw [if_neg hp] at h
    exact absurd h (by simp)

theorem compare_scaled {a b c : ℚ} {x y : Int} (hc : 0 < c) (hx : (x : ℚ) = a * c)
    (hy : (y : ℚ) = b * c) : compare x y = compare a b := by
  have hlt : x < y ↔ a < b := by
    rw [← Int.cast_lt (R := ℚ), hx, hy]
    exact mul_lt_mul_iff_left₀ hc
  have hgt : y < x ↔ b < a := by
    rw [← Int.cast_lt (R := ℚ), hx, hy]
    exact mul_lt_mul_iff_left₀ hc
  rcases lt_trichotomy a b with h | h | h
  · rw [compare_lt_iff_lt.mpr h, compare_lt_iff_lt.mpr (hlt.mpr h)]
  · have hxy : x = y := by
      apply le_antisymm
      · exact not_lt.mp (hgt.not.mpr h.not_gt)
      · exact not_lt.mp (hlt.not.mpr h.not_lt)
    rw [compare_eq_iff_eq.mpr h, compare_eq_iff_eq.mpr hxy]
  · rw [compare_gt_iff_gt.mpr h, compare_gt_iff_gt.mpr (hgt.mpr h)]

theorem left_le_finer (s t : UInt8) : s ≤ max s t := by
  show s ≤ if s ≤ t then t else s
  by_cases h : s ≤ t
  · rwa [if_pos h]
  · rw [if_neg h]
    exact UInt8.le_refl s

theorem finer_comm (s t : UInt8) : max s t = max t s := by
  show (if s ≤ t then t else s) = if t ≤ s then s else t
  have h := UInt8.le_total s t
  by_cases hst : s ≤ t
  · by_cases hts : t ≤ s
    · rw [if_pos hst, if_pos hts, UInt8.le_antisymm hst hts]
    · rw [if_pos hst, if_neg hts]
  · rw [if_neg hst, if_pos (h.resolve_left hst)]

theorem cmpExact_eq {a b : Value} {o : Ordering} (h : cmpExact a b = some o) :
    o = compare a.exact b.exact := by
  unfold cmpExact at h
  cases ha : a.exactUnits with
  | none => simp [ha] at h
  | some p =>
    cases hb : b.exactUnits with
    | none => simp [ha, hb] at h
    | some q =>
      cases hx : lift (max p.2 q.2) p.1 p.2 with
      | none => simp [ha, hb, hx] at h
      | some x =>
        cases hy : lift (max p.2 q.2) q.1 q.2 with
        | none => simp [ha, hb, hx, hy] at h
        | some y =>
          simp only [ha, hb, hx, hy, Option.bind_eq_bind, Option.bind_some, Option.pure_def,
            Option.some.injEq] at h
          rw [← h]
          apply compare_scaled (c := 10 ^ (max p.2 q.2).toNat) (by positivity)
          · rw [exact, ha]
            exact lift_toInt (left_le_finer _ _) hx
          · rw [exact, hb]
            exact lift_toInt (finer_comm q.2 p.2 ▸ left_le_finer _ _) hy

theorem compare_swap {α : Type} [LinearOrder α] (a b : α) : compare a b = (compare b a).swap :=
  OrientedCmp.eq_swap

theorem compare_natCast (m n : ℕ) : compare (m : ℤ) n = compare m n := by
  rcases lt_trichotomy m n with h | h | h
  · rw [compare_lt_iff_lt.mpr h, compare_lt_iff_lt.mpr (Int.ofNat_lt.mpr h)]
  · rw [h, compare_eq_iff_eq.mpr rfl, compare_eq_iff_eq.mpr rfl]
  · rw [compare_gt_iff_gt.mpr h, compare_gt_iff_gt.mpr (Int.ofNat_lt.mpr h)]

/-- Either reading, as the pair decides. -/
theorem cmpNumeric_eq (a b : Value) : cmpNumeric a b =
    if Comparable a b then compare a.exact b.exact else compare a.numKey b.numKey := by
  by_cases hc : Comparable a b
  · obtain ⟨o, ho⟩ := Option.isSome_iff_exists.mp hc
    rw [if_pos hc, cmpNumeric, ho]
    exact cmpExact_eq ho
  · rw [if_neg hc, cmpNumeric, Option.not_isSome_iff_eq_none.mp hc]
    rfl

theorem numeric_exact {a b : Value} (h : Comparable a b) :
    cmpNumeric a b = compare a.exact b.exact := by rw [cmpNumeric_eq, if_pos h]

theorem exactUnits_of_comparable {a b : Value} (h : Comparable a b) :
    a.exactUnits.isSome ∧ b.exactUnits.isSome := by
  unfold Comparable cmpExact at h
  cases ha : a.exactUnits with
  | none => simp [ha] at h
  | some p => cases hb : b.exactUnits <;> simp [ha, hb] at h ⊢

theorem rank_of_comparable {a b : Value} (h : Comparable a b) : a.rank = 2 ∧ b.rank = 2 := by
  have hr : ∀ v : Value, v.exactUnits.isSome → v.rank = 2 := by
    intro v hv
    cases v <;> first | rfl | cases hv
  exact ⟨hr a (exactUnits_of_comparable h).1, hr b (exactUnits_of_comparable h).2⟩

theorem numeric_key {a b : Value} (h : ¬ Comparable a b) :
    cmpNumeric a b = compare a.numKey b.numKey := by rw [cmpNumeric_eq, if_neg h]

theorem comparable_swap (a b : Value) : Comparable a b ↔ Comparable b a := by
  unfold Comparable cmpExact
  cases a.exactUnits with
  | none => cases b.exactUnits <;> simp
  | some p =>
    cases b.exactUnits with
    | none => simp
    | some q =>
      simp only [Option.bind_eq_bind, Option.bind_some, finer_comm p.2 q.2]
      cases lift (max q.2 p.2) p.1 p.2 <;> cases lift (max q.2 p.2) q.1 q.2 <;> simp

theorem cmpNumeric_swap (a b : Value) : cmpNumeric a b = (cmpNumeric b a).swap := by
  by_cases h : Comparable a b
  · rw [numeric_exact h, numeric_exact ((comparable_swap a b).mp h)]
    exact OrientedCmp.eq_swap
  · rw [numeric_key h, numeric_key ((comparable_swap a b).not.mp h)]
    exact OrientedCmp.eq_swap

instance : OrientedCmp cmpNumeric := ⟨cmpNumeric_swap _ _⟩

/-! ## Where the readings agree -/

/-- Numbers of `S` never meet with one pair read exactly, another as floats, and
the two readings telling different orders. -/
structure Coherent (S : Value → Prop) : Prop where
  /-- A number read as a float against both ends of an exact pair, and between them. -/
  between_floats : ∀ a b c, S a → S b → S c → c.rank = 2 →
    Comparable a b → ¬ Comparable a c → ¬ Comparable b c →
    a.numKey ≤ c.numKey → c.numKey ≤ b.numKey → compare a.exact b.exact = compare a.numKey b.numKey
  /-- A number read exactly against both ends of a float pair, and between them. -/
  between_exact : ∀ a b c, S a → S b → S c →
    Comparable a b → Comparable b c → ¬ Comparable a c →
    a.exact ≤ b.exact → b.exact ≤ c.exact → compare a.numKey c.numKey = compare a.exact c.exact

section Coherent

variable {S : Value → Prop} {a b c : Value}

/-- A float apart from an exact pair lies beyond one of its ends, or the readings agree. -/
theorem ranked_float (hS : Coherent S) (ha : S a) (hb : S b) (hc : S c) (hr : c.rank = 2)
    (hab : Comparable a b) (hac : ¬ Comparable a c) (hbc : ¬ Comparable b c) :
    Ranked cmpNumeric a b c := by
  have hE := numeric_exact hab
  have hac' := numeric_key hac
  have hbc' := numeric_key hbc
  by_cases h : compare a.exact b.exact = compare a.numKey b.numKey
  · exact ⟨ℕ, inferInstance, a.numKey, b.numKey, c.numKey, hE.trans h, hbc', hac'⟩
  have hnab : ¬ (a.numKey ≤ c.numKey ∧ c.numKey ≤ b.numKey) := fun hk =>
    h (hS.between_floats a b c ha hb hc hr hab hac hbc hk.1 hk.2)
  have hnba : ¬ (b.numKey ≤ c.numKey ∧ c.numKey ≤ a.numKey) := by
    intro hk
    have hs := hS.between_floats b a c hb ha hc hr ((comparable_swap a b).mp hab) hbc hac hk.1 hk.2
    apply h
    rw [compare_swap a.exact, compare_swap a.numKey, hs]
  by_cases hlow : c.numKey < a.numKey
  · have hlow' : c.numKey < b.numKey := by omega
    refine ⟨ℚ, inferInstance, a.exact, b.exact, min a.exact b.exact - 1, hE, ?_, ?_⟩
    · rw [hbc', compare_gt_iff_gt.mpr hlow', eq_comm, compare_gt_iff_gt]
      exact (sub_one_lt _).trans_le (min_le_right _ _)
    · rw [hac', compare_gt_iff_gt.mpr hlow, eq_comm, compare_gt_iff_gt]
      exact (sub_one_lt _).trans_le (min_le_left _ _)
  · have hhigh : a.numKey < c.numKey := by omega
    have hhigh' : b.numKey < c.numKey := by omega
    refine ⟨ℚ, inferInstance, a.exact, b.exact, max a.exact b.exact + 1, hE, ?_, ?_⟩
    · rw [hbc', compare_lt_iff_lt.mpr hhigh', eq_comm, compare_lt_iff_lt]
      exact (le_max_right _ _).trans_lt (lt_add_one _)
    · rw [hac', compare_lt_iff_lt.mpr hhigh, eq_comm, compare_lt_iff_lt]
      exact (le_max_left _ _).trans_lt (lt_add_one _)

/-- A pair read as floats, both exact against a third number: it lies beyond one
of them, or the readings agree. -/
theorem ranked_exact (hS : Coherent S) (ha : S a) (hb : S b) (hc : S c)
    (hab : Comparable a b) (hbc : Comparable b c) (hac : ¬ Comparable a c) :
    Ranked cmpNumeric a b c := by
  have hab' := numeric_exact hab
  have hbc' := numeric_exact hbc
  have hK := numeric_key hac
  by_cases h : compare a.numKey c.numKey = compare a.exact c.exact
  · exact ⟨ℚ, inferInstance, a.exact, b.exact, c.exact, hab', hbc', hK.trans h⟩
  have hnac : ¬ (a.exact ≤ b.exact ∧ b.exact ≤ c.exact) := fun he =>
    h (hS.between_exact a b c ha hb hc hab hbc hac he.1 he.2)
  have hnca : ¬ (c.exact ≤ b.exact ∧ b.exact ≤ a.exact) := by
    intro he
    have hs := hS.between_exact c b a hc hb ha ((comparable_swap b c).mp hbc)
      ((comparable_swap a b).mp hab) ((comparable_swap a c).not.mp hac) he.1 he.2
    apply h
    rw [compare_swap a.exact, compare_swap a.numKey, hs]
  by_cases hlow : b.exact < a.exact
  · have hlow' : b.exact < c.exact := by
      by_contra hcb
      exact hnca ⟨not_lt.mp hcb, hlow.le⟩
    refine ⟨ℤ, inferInstance, a.numKey, -1, c.numKey, ?_, ?_, ?_⟩
    · rw [hab', compare_gt_iff_gt.mpr hlow, eq_comm, compare_gt_iff_gt]
      omega
    · rw [hbc', compare_lt_iff_lt.mpr hlow', eq_comm, compare_lt_iff_lt]
      omega
    · rw [hK]
      exact (compare_natCast a.numKey c.numKey).symm
  · have hhigh : c.exact < b.exact := by
      by_contra hbc
      exact hnac ⟨not_lt.mp hlow, not_lt.mp hbc⟩
    have hhigh' : a.exact < b.exact := by
      by_contra hba
      exact hnca ⟨hhigh.le, not_lt.mp hba⟩
    refine ⟨ℤ, inferInstance, a.numKey, max a.numKey c.numKey + 1, c.numKey, ?_, ?_, ?_⟩
    · rw [hab', compare_lt_iff_lt.mpr hhigh', eq_comm, compare_lt_iff_lt]
      omega
    · rw [hbc', compare_gt_iff_gt.mpr hhigh, eq_comm, compare_gt_iff_gt]
      omega
    · rw [hK]
      exact (compare_natCast a.numKey c.numKey).symm

theorem ranked_numbers (hS : Coherent S) (ha : S a) (hb : S b) (hc : S c)
    (ra : a.rank = 2) (rb : b.rank = 2) (rc : c.rank = 2) : Ranked cmpNumeric a b c := by
  have hsw := fun x y => (comparable_swap x y).not
  by_cases hab : Comparable a b
  · by_cases hbc : Comparable b c
    · by_cases hac : Comparable a c
      · exact ⟨ℚ, inferInstance, a.exact, b.exact, c.exact, numeric_exact hab, numeric_exact hbc,
          numeric_exact hac⟩
      · exact ranked_exact hS ha hb hc hab hbc hac
    · by_cases hac : Comparable a c
      · exact (ranked_exact hS hb ha hc ((comparable_swap a b).mp hab) hac hbc).swap_left
      · exact ranked_float hS ha hb hc rc hab hac hbc
  · by_cases hbc : Comparable b c
    · by_cases hac : Comparable a c
      · exact (ranked_exact hS ha hc hb hac ((comparable_swap b c).mp hbc) hab).swap_right
      · exact ((ranked_float hS hb hc ha ra hbc ((hsw a b).mp hab)
          ((hsw a c).mp hac)).swap_right).swap_left
    · by_cases hac : Comparable a c
      · exact (ranked_float hS ha hc hb rb hac hab ((hsw b c).mp hbc)).swap_right
      · exact ⟨ℕ, inferInstance, a.numKey, b.numKey, c.numKey, numeric_key hab, numeric_key hbc,
          numeric_key hac⟩

end Coherent

/-! ## The order on values -/

theorem cmp_of_rank_ne {a b : Value} (h : a.rank ≠ b.rank) : a.cmp b = compare a.rank b.rank := by
  cases a <;> cases b <;> simp_all [cmp, rank]

theorem cmp_numbers {a b : Value} (ha : a.rank = 2) (hb : b.rank = 2) : a.cmp b = cmpNumeric a b := by
  cases a <;> simp_all [cmp, rank]

theorem cmpBytes_swap (a b : Bytes) : cmpBytes a b = (cmpBytes b a).swap := by
  induction a generalizing b with
  | nil => cases b <;> rfl
  | cons x xs ih =>
    cases b with
    | nil => rfl
    | cons y ys => rw [cmpBytes, cmpBytes, Ordering.swap_then, ← compare_swap, ← ih]

theorem cmpBytes_linked (a b c : Bytes) : Linked (cmpBytes a b) (cmpBytes b c) (cmpBytes a c) := by
  induction a generalizing b c with
  | nil =>
    cases b with
    | nil => exact fun _ _ => rfl
    | cons y ys =>
      cases c with
      | nil => exact fun _ h => absurd rfl h
      | cons z zs => exact .of_lt _ (.inl rfl) rfl
  | cons x xs ih =>
    cases b with
    | nil => exact fun h => absurd rfl h
    | cons y ys =>
      cases c with
      | nil => exact fun _ h => absurd rfl h
      | cons z zs => exact (linked_compare x.toNat y.toNat z.toNat).lexicographic (ih ys zs)

mutual

theorem cmp_swap : (a b : Value) → a.cmp b = (b.cmp a).swap
  | a, b => by
    by_cases hr : a.rank = b.rank
    · by_cases h2 : a.rank = 2
      · rw [cmp_numbers h2 (hr ▸ h2), cmp_numbers (hr ▸ h2) h2, cmpNumeric_swap]
      · match a, b with
        | null, null => rfl
        | bool x, bool y => exact compare_swap x.toNat y.toNat
        | str x, str y => exact compare_swap x y
        | bytes x, bytes y => exact cmpBytes_swap x y
        | timestamp x, timestamp y => exact compare_swap x.toInt y.toInt
        | list xs, list ys => exact cmpList_swap xs ys
        | map xs, map ys => exact cmpEntries_swap xs ys
    · rw [cmp_of_rank_ne hr, cmp_of_rank_ne (Ne.symm hr)]
      exact compare_swap a.rank b.rank

theorem cmpList_swap : (xs ys : List Value) → cmpList xs ys = (cmpList ys xs).swap
  | [], [] | [], _ :: _ | _ :: _, [] => rfl
  | x :: xs, y :: ys => by
    rw [cmpList, cmpList, Ordering.swap_then, ← cmp_swap x y, ← cmpList_swap xs ys]

theorem cmpEntries_swap : (xs ys : List (String × Value)) →
    cmpEntries xs ys = (cmpEntries ys xs).swap
  | [], [] | [], _ :: _ | _ :: _, [] => rfl
  | (j, x) :: xs, (k, y) :: ys => by
    rw [cmpEntries, cmpEntries, Ordering.swap_then, Ordering.swap_then, ← compare_swap,
      ← cmp_swap x y, ← cmpEntries_swap xs ys]

end

mutual

/-- Every number inside the value, however deep, is in `S`. -/
def NumbersIn (S : Value → Prop) : Value → Prop
  | i64 n => S (i64 n)
  | u64 n => S (u64 n)
  | f64 f => S (f64 f)
  | decimal u s => S (decimal u s)
  | list items => ItemsIn S items
  | map m => EntriesIn S m
  | _ => True

def ItemsIn (S : Value → Prop) : List Value → Prop
  | [] => True
  | v :: vs => NumbersIn S v ∧ ItemsIn S vs

def EntriesIn (S : Value → Prop) : List (String × Value) → Prop
  | [] => True
  | (_, v) :: es => NumbersIn S v ∧ EntriesIn S es

end

theorem numbersIn_number {S : Value → Prop} {v : Value} (h : v.rank = 2) : NumbersIn S v ↔ S v := by
  cases v <;> simp_all [rank, NumbersIn]

section Linked

variable {S : Value → Prop}

/-- Values of different ranks, the order of the ranks deciding. -/
theorem linked_ranks {a b c : Value} (h : ¬ (a.rank = b.rank ∧ b.rank = c.rank)) :
    Linked (a.cmp b) (b.cmp c) (a.cmp c) := by
  by_cases hab : a.rank = b.rank
  · have hbc : b.rank ≠ c.rank := fun hbc => h ⟨hab, hbc⟩
    have hac : a.rank ≠ c.rank := fun hac => hbc (hab.symm.trans hac)
    rw [cmp_of_rank_ne hbc, cmp_of_rank_ne hac, hab]
    intro h₁ h₂
    cases hc : compare b.rank c.rank with
    | lt => cases ha : a.cmp b <;> simp_all
    | eq => exact absurd (compare_eq_iff_eq.mp hc) hbc
    | gt => exact absurd hc h₂
  · rw [cmp_of_rank_ne hab]
    intro h₁ h₂
    have hlt : a.rank < b.rank := by
      rw [ne_eq, compare_gt_iff_gt] at h₁
      omega
    have hle : b.rank ≤ c.rank := by
      by_cases hbc : b.rank = c.rank
      · omega
      · rw [cmp_of_rank_ne hbc, ne_eq, compare_gt_iff_gt] at h₂
        omega
    rw [cmp_of_rank_ne (by omega), compare_lt_iff_lt.mpr hlt, compare_lt_iff_lt.mpr (by omega)]
    rfl

mutual

theorem cmp_linked (hS : Coherent S) : (a b c : Value) →
    NumbersIn S a → NumbersIn S b → NumbersIn S c → Linked (a.cmp b) (b.cmp c) (a.cmp c)
  | a, b, c, ha, hb, hc => by
    by_cases hr : a.rank = b.rank ∧ b.rank = c.rank
    · by_cases h2 : a.rank = 2
      · have hb2 : b.rank = 2 := hr.1 ▸ h2
        have hc2 : c.rank = 2 := hr.2 ▸ hb2
        rw [numbersIn_number h2] at ha
        rw [numbersIn_number hb2] at hb
        rw [numbersIn_number hc2] at hc
        rw [cmp_numbers h2 hb2, cmp_numbers hb2 hc2, cmp_numbers h2 hc2]
        exact (ranked_numbers hS ha hb hc h2 hb2 hc2).linked
      · match a, b, c with
        | null, null, null => exact fun _ _ => rfl
        | bool x, bool y, bool z => exact linked_compare x.toNat y.toNat z.toNat
        | str x, str y, str z => exact linked_compare x y z
        | bytes x, bytes y, bytes z => exact cmpBytes_linked x y z
        | timestamp x, timestamp y, timestamp z =>
          exact linked_compare x.toInt y.toInt z.toInt
        | list xs, list ys, list zs => exact cmpList_linked hS xs ys zs ha hb hc
        | map xs, map ys, map zs => exact cmpEntries_linked hS xs ys zs ha hb hc
    · exact linked_ranks hr

theorem cmpList_linked (hS : Coherent S) : (xs ys zs : List Value) →
    ItemsIn S xs → ItemsIn S ys → ItemsIn S zs →
    Linked (cmpList xs ys) (cmpList ys zs) (cmpList xs zs)
  | [], [], _, _, _, _ => fun _ _ => rfl
  | [], _ :: _, _ :: _, _, _, _ => .of_lt _ (.inl rfl) rfl
  | _, _ :: _, [], _, _, _ => fun _ h => absurd rfl h
  | _ :: _, [], _, _, _, _ => fun h => absurd rfl h
  | x :: xs, y :: ys, z :: zs, hx, hy, hz =>
    (cmp_linked hS x y z hx.1 hy.1 hz.1).lexicographic (cmpList_linked hS xs ys zs hx.2 hy.2 hz.2)

theorem cmpEntries_linked (hS : Coherent S) : (xs ys zs : List (String × Value)) →
    EntriesIn S xs → EntriesIn S ys → EntriesIn S zs →
    Linked (cmpEntries xs ys) (cmpEntries ys zs) (cmpEntries xs zs)
  | [], [], _, _, _, _ => fun _ _ => rfl
  | [], _ :: _, _ :: _, _, _, _ => .of_lt _ (.inl rfl) rfl
  | _, _ :: _, [], _, _, _ => fun _ h => absurd rfl h
  | _ :: _, [], _, _, _, _ => fun h => absurd rfl h
  | (j, x) :: xs, (k, y) :: ys, (l, z) :: zs, hx, hy, hz =>
    ((linked_compare j k l).lexicographic (cmp_linked hS x y z hx.1 hy.1 hz.1)).lexicographic
      (cmpEntries_linked hS xs ys zs hx.2 hy.2 hz.2)

end

end Linked

/-! ## Totality -/

/-- The laws of a total order on the values with `p`, equality being the order's. -/
structure TotalOrderOn (p : Value → Prop) : Prop where
  swap : ∀ x y, p x → p y → x.cmp y = (y.cmp x).swap
  trans : ∀ x y z, p x → p y → p z → x.cmp y ≠ .gt → y.cmp z ≠ .gt → x.cmp z ≠ .gt
  refl : ∀ x, p x → x.cmp x = .eq
  symm : ∀ x y, p x → p y → x.cmp y = .eq → y.cmp x = .eq
  eq_trans : ∀ x y z, p x → p y → p z → x.cmp y = .eq → y.cmp z = .eq → x.cmp z = .eq
  congr : ∀ x y z, p x → p y → p z → x.cmp y = .eq → x.cmp z = y.cmp z

theorem linked_of_totalOrder {p : Value → Prop} (h : TotalOrderOn p) {x y z : Value}
    (hx : p x) (hy : p y) (hz : p z) : Linked (x.cmp y) (y.cmp z) (x.cmp z) := by
  intro hxy hyz
  cases h₁ : x.cmp y with
  | eq => exact h.congr x y z hx hy hz h₁
  | gt => exact absurd h₁ hxy
  | lt =>
    cases h₂ : x.cmp z with
    | lt => rfl
    | gt => exact absurd h₂ (h.trans x y z hx hy hz hxy hyz)
    | eq =>
      -- Then `z` compares with `y` as `x` does, below it.
      have hzy : z.cmp y = .lt := by
        rw [← h.congr x z y hx hz hy h₂, h₁]
      rw [h.swap y z hy hz, hzy] at hyz
      exact absurd rfl hyz

theorem totalOrder_of_linked {p : Value → Prop}
    (h : ∀ x y z, p x → p y → p z → Linked (x.cmp y) (y.cmp z) (x.cmp z)) : TotalOrderOn p where
  swap x y _ _ := cmp_swap x y
  trans x y z hx hy hz hxy hyz := by
    rw [h x y z hx hy hz hxy hyz]
    cases hc : x.cmp y <;> simp_all
  refl x _ := cmp_self x
  symm x y _ _ hxy := by rw [cmp_swap, hxy, Ordering.swap_eq]
  eq_trans x y z hx hy hz hxy hyz := by
    rw [h x y z hx hy hz (by simp [hxy]) (by simp [hyz]), hxy, hyz, Ordering.eq_then]
  congr x y z hx hy hz hxy := by
    by_cases hyz : y.cmp z = .gt
    · have hzy : z.cmp y = .lt := by rw [cmp_swap, hyz, Ordering.swap_gt]
      have hyx : y.cmp x = .eq := by rw [cmp_swap, hxy, Ordering.swap_eq]
      have hzx := h z y x hz hy hx (by simp [hzy]) (by simp [hyx])
      rw [hzy, Ordering.lt_then] at hzx
      rw [cmp_swap, hzx, hyz, Ordering.swap_lt]
    · rw [h x y z hx hy hz (by simp [hxy]) hyz, hxy, Ordering.eq_then]

/-- The order is total on the values with numbers in `S` exactly when those
numbers are coherent. -/
theorem totalOrder_iff (S : Value → Prop) : TotalOrderOn (NumbersIn S) ↔ Coherent S := by
  constructor
  · intro h
    have law : ∀ {x y z : Value}, S x → S y → S z → x.rank = 2 → y.rank = 2 → z.rank = 2 →
        Linked (cmpNumeric x y) (cmpNumeric y z) (cmpNumeric x z) := by
      intro x y z hx hy hz rx ry rz
      rw [← cmp_numbers rx ry, ← cmp_numbers ry rz, ← cmp_numbers rx rz]
      exact linked_of_totalOrder h ((numbersIn_number rx).mpr hx) ((numbersIn_number ry).mpr hy)
        ((numbersIn_number rz).mpr hz)
    constructor
    · intro a b c ha hb hc rc hab hac hbc hak hkb
      have hl := law ha hc hb (rank_of_comparable hab).1 rc (rank_of_comparable hab).2
      rw [numeric_exact hab, numeric_key hac, numeric_key ((comparable_swap b c).not.mp hbc)] at hl
      rw [hl (compare_le_iff_le.mpr hak) (compare_le_iff_le.mpr hkb)]
      exact (linked_compare _ _ _ (compare_le_iff_le.mpr hak) (compare_le_iff_le.mpr hkb)).symm
    · intro a b c ha hb hc hab hbc hac hle hle'
      have hl := law ha hb hc (rank_of_comparable hab).1 (rank_of_comparable hab).2
        (rank_of_comparable hbc).2
      rw [numeric_exact hab, numeric_exact hbc, numeric_key hac] at hl
      rw [hl (compare_le_iff_le.mpr hle) (compare_le_iff_le.mpr hle')]
      exact (linked_compare _ _ _ (compare_le_iff_le.mpr hle) (compare_le_iff_le.mpr hle')).symm
  · intro hS
    exact totalOrder_of_linked fun x y z hx hy hz => cmp_linked hS x y z hx hy hz

/-- `2^53 + 1` and `2^53` are apart as integers and equal as floats. -/
theorem order_not_total : ¬ TotalOrderOn fun _ => True := by
  intro h
  have hc := h.congr (i64 9007199254740993) (f64 ⟨0x4340000000000000⟩) (i64 9007199254740992)
    trivial trivial trivial (by decide)
  revert hc
  decide

end Adabt.Core.Value
