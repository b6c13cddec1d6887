import Adabt.Core.Rounding
import Adabt.Core.ValueOrder
import Adabt.Storage.Cursor

/-! # When equal values hash alike

`hashBytes` is what the `Hash` of a value feeds to the hasher: the rank, then the
content, with lengths before collections and a closing byte after strings. A
number is fed as the key of its float, while exact numbers of different scales
are equal by rescaling. -/

set_option autoImplicit false

namespace Adabt.Core.Value
open Adabt.Library
open Adabt.Storage (utf8)

mutual

def hashBytes : Value → Bytes
  | null => [0]
  | bool b => [1, b.toUInt8]
  | i64 n => 2 :: leBytes 8 (i64 n).numKey
  | u64 n => 2 :: leBytes 8 (u64 n).numKey
  | f64 f => 2 :: leBytes 8 (f64 f).numKey
  | decimal units scale => 2 :: leBytes 8 (decimal units scale).numKey
  | str s => 3 :: (utf8 s ++ [0xff])
  | bytes b => 4 :: (leBytes 8 b.length ++ b)
  | list items => 5 :: (leBytes 8 items.length ++ hashItems items)
  | map m => 6 :: (leBytes 8 m.length ++ hashEntries m)
  | timestamp t => 7 :: leBytes 8 t.toUInt64.toNat

def hashItems : List Value → Bytes
  | [] => []
  | v :: vs => hashBytes v ++ hashItems vs

def hashEntries : List (String × Value) → Bytes
  | [] => []
  | (k, v) :: es => utf8 k ++ [0xff] ++ hashBytes v ++ hashEntries es

end

/-! ## Numbers -/

/-- The units have at most 53 significant bits and the power of ten is a double. -/
def Convertible (u : Int) (s : UInt8) : Prop := u = 0 ∨ F64.Holds u.natAbs ∧ s.toNat ≤ 22

instance (u : Int) (s : UInt8) : Decidable (Convertible u s) := inferInstanceAs (Decidable (_ ∨ _))

/-- Two exact numbers written at different scales convert to floats exactly. -/
def ConvertNumbers (a b : Value) : Prop :=
  match a.exactUnits, b.exactUnits with
  | some (u, s), some (v, t) => Comparable a b → s ≠ t → Convertible u s ∧ Convertible v t
  | _, _ => True

theorem exactUnits_bound {v : Value} {u : Int} {s : UInt8} (h : v.exactUnits = some (u, s)) :
    u.natAbs ≤ 2 ^ 127 := by
  cases v with
  | i64 n =>
    simp only [exactUnits, Option.some.injEq, Prod.mk.injEq] at h
    have h₁ := n.le_toInt
    have h₂ := n.toInt_lt
    omega
  | u64 n =>
    simp only [exactUnits, Option.some.injEq, Prod.mk.injEq] at h
    have h₁ := n.toNat_lt
    omega
  | decimal units scale =>
    simp only [exactUnits, Option.some.injEq, Prod.mk.injEq] at h
    have h₁ := BitVec.le_toInt units
    have h₂ := BitVec.toInt_lt (x := units)
    omega
  | _ => simp [exactUnits] at h

theorem log2_bound {n : ℕ} (h : n ≤ 2 ^ 127) : Nat.log2 n ≤ 127 := by
  by_cases hn : n = 0
  · subst hn
    decide
  · rw [← Nat.lt_succ_iff, Nat.log2_lt hn]
    exact h.trans_lt (by decide)

/-- Every exact number converts as a decimal of its units and scale. -/
theorem asNum_exact {v : Value} {u : Int} {s : UInt8} (h : v.exactUnits = some (u, s)) :
    v.asNum = some (F64.ofDecimal u s) := by
  have hone : ∀ n : Int, n.natAbs ≤ 2 ^ 127 → F64.ofInt n = F64.ofDecimal n 0 := by
    intro n hb
    unfold F64.ofInt F64.ofDecimal
    by_cases hn : n.natAbs = 0
    · rw [hn, F64.divMag_zero]
      rfl
    · obtain ⟨h₁, h₂⟩ := F64.roundMag_normal hn (by have := log2_bound hb; omega)
      rw [F64.divMag_one h₁ h₂]
  have hb := exactUnits_bound h
  cases v with
  | i64 n | u64 n | decimal units scale =>
    simp only [exactUnits, Option.some.injEq, Prod.mk.injEq] at h
    obtain ⟨rfl, rfl⟩ := h
    simp only [asNum, hone _ hb]
  | _ => simp [exactUnits] at h

theorem ofDecimal_eq {u v : Int} {s t : UInt8} (hu : Convertible u s) (hv : Convertible v t)
    (hbu : u.natAbs ≤ 2 ^ 127) (hbv : v.natAbs ≤ 2 ^ 127)
    (h : (u : ℚ) / 10 ^ s.toNat = v / 10 ^ t.toNat) : F64.ofDecimal u s = F64.ofDecimal v t := by
  have hps : (0 : ℚ) < 10 ^ s.toNat := by positivity
  have hpt : (0 : ℚ) < 10 ^ t.toNat := by positivity
  have hz : u = 0 ↔ v = 0 := by
    rw [← Int.cast_eq_zero (α := ℚ), ← Int.cast_eq_zero (α := ℚ) (n := v)]
    constructor
    · intro h0
      rw [h0, zero_div, eq_comm, div_eq_zero_iff] at h
      exact h.resolve_right hpt.ne'
    · intro h0
      rw [h0, zero_div, div_eq_zero_iff] at h
      exact h.resolve_right hps.ne'
  by_cases hu0 : u = 0
  · rw [hu0, hz.mp hu0, F64.ofDecimal, F64.ofDecimal, Int.natAbs_zero, F64.divMag_zero,
      F64.divMag_zero]
  have hv0 : v ≠ 0 := hz.not.mp hu0
  obtain ⟨hu₁, hu₂⟩ := hu.resolve_left hu0
  obtain ⟨hv₁, hv₂⟩ := hv.resolve_left hv0
  have hneg : u < 0 ↔ v < 0 := by
    have hu : (u : ℚ) / 10 ^ s.toNat < 0 ↔ u < 0 := by
      rw [div_lt_iff₀ hps, zero_mul, Int.cast_lt_zero]
    have hv : (v : ℚ) / 10 ^ t.toNat < 0 ↔ v < 0 := by
      rw [div_lt_iff₀ hpt, zero_mul, Int.cast_lt_zero]
    rw [← hu, h, hv]
  have habs : (u.natAbs : ℚ) / (10 ^ s.toNat : ℕ) = v.natAbs / (10 ^ t.toNat : ℕ) := by
    have ha := congrArg abs h
    rw [abs_div, abs_div, abs_of_pos hps, abs_of_pos hpt] at ha
    push_cast [Nat.cast_natAbs]
    exact ha
  have hlu : Nat.log2 u.natAbs ≤ 1023 := (log2_bound hbu).trans (by decide)
  have hlv : Nat.log2 v.natAbs ≤ 1023 := (log2_bound hbv).trans (by decide)
  unfold F64.ofDecimal
  rw [F64.divMag_exact (by omega) hu₁ hlu hu₂, F64.divMag_exact (by omega) hv₁ hlv hv₂,
    F64.roundMag_ratio (by positivity) (by positivity) habs, decide_eq_decide.mpr hneg]

theorem numKey_eq {a b : Value} (h : cmpNumeric a b = .eq) (hc : ConvertNumbers a b) :
    a.numKey = b.numKey := by
  by_cases hab : Comparable a b
  · rw [numeric_exact hab, compare_eq_iff_eq] at h
    obtain ⟨⟨u, s⟩, ha⟩ := Option.isSome_iff_exists.mp (exactUnits_of_comparable hab).1
    obtain ⟨⟨v, t⟩, hb⟩ := Option.isSome_iff_exists.mp (exactUnits_of_comparable hab).2
    rw [exact, exact, ha, hb] at h
    rw [ConvertNumbers, ha, hb] at hc
    rw [numKey, numKey, asNum_exact ha, asNum_exact hb]
    by_cases hst : s = t
    · have huv : u = v := by
        rw [hst, div_left_inj' (by positivity)] at h
        exact_mod_cast h
      rw [hst, huv]
    · obtain ⟨hu, hv⟩ := hc hab hst
      rw [ofDecimal_eq hu hv (exactUnits_bound ha) (exactUnits_bound hb) h]
  · rw [numeric_key hab, compare_eq_iff_eq] at h
    exact h

/-! ## Values -/

mutual

/-- Numbers in corresponding places convert exactly where their scales differ. -/
def Converts : Value → Value → Prop
  | list xs, list ys => ConvertItems xs ys
  | map xs, map ys => ConvertEntries xs ys
  | a, b => ConvertNumbers a b

def ConvertItems : List Value → List Value → Prop
  | x :: xs, y :: ys => Converts x y ∧ ConvertItems xs ys
  | _, _ => True

def ConvertEntries : List (String × Value) → List (String × Value) → Prop
  | (_, x) :: xs, (_, y) :: ys => Converts x y ∧ ConvertEntries xs ys
  | _, _ => True

end

theorem cmpBytes_eq {a b : Bytes} (h : cmpBytes a b = .eq) : a = b := by
  induction a generalizing b with
  | nil =>
    cases b with
    | nil => rfl
    | cons y ys => cases h
  | cons x xs ih =>
    cases b with
    | nil => cases h
    | cons y ys =>
      rw [cmpBytes, Ordering.then_eq_eq, compare_eq_iff_eq] at h
      rw [UInt8.toNat_inj.mp h.1, ih h.2]

theorem rank_eq_of_cmp {a b : Value} (h : a.cmp b = .eq) : a.rank = b.rank := by
  by_contra hr
  rw [cmp_of_rank_ne hr, compare_eq_iff_eq] at h
  exact hr h

theorem length_eq_of_cmpList {xs ys : List Value} (h : cmpList xs ys = .eq) :
    xs.length = ys.length := by
  induction xs generalizing ys with
  | nil => cases ys <;> simp_all [cmpList]
  | cons x xs ih =>
    cases ys with
    | nil => cases h
    | cons y ys =>
      rw [cmpList, Ordering.then_eq_eq] at h
      rw [List.length_cons, List.length_cons, ih h.2]

theorem length_eq_of_cmpEntries {xs ys : List (String × Value)} (h : cmpEntries xs ys = .eq) :
    xs.length = ys.length := by
  induction xs generalizing ys with
  | nil => cases ys <;> simp_all [cmpEntries]
  | cons x xs ih =>
    cases ys with
    | nil => cases h
    | cons y ys =>
      rw [cmpEntries, Ordering.then_eq_eq] at h
      rw [List.length_cons, List.length_cons, ih h.2]

theorem hashBytes_number {v : Value} (h : v.rank = 2) : hashBytes v = 2 :: leBytes 8 v.numKey := by
  cases v <;> simp_all [rank, hashBytes]

theorem converts_number {a b : Value} (h : a.rank = 2) : Converts a b ↔ ConvertNumbers a b := by
  cases a <;> simp_all [rank, Converts]

mutual

theorem hash_of_cmp : (a b : Value) → a.cmp b = .eq → Converts a b → hashBytes a = hashBytes b
  | a, b, h, hc => by
    have hr := rank_eq_of_cmp h
    by_cases h2 : a.rank = 2
    · rw [cmp_numbers h2 (hr ▸ h2)] at h
      rw [converts_number h2] at hc
      rw [hashBytes_number h2, hashBytes_number (hr ▸ h2), numKey_eq h hc]
    · match a, b with
      | null, null => rfl
      | bool x, bool y =>
        have hxy : x.toNat = y.toNat := compare_eq_iff_eq.mp h
        cases x <;> cases y <;> first | rfl | cases hxy
      | str x, str y =>
        have hxy : x = y := compare_eq_iff_eq.mp h
        rw [hxy]
      | bytes x, bytes y => rw [cmpBytes_eq h]
      | timestamp x, timestamp y =>
        have hxy : x.toInt = y.toInt := compare_eq_iff_eq.mp h
        rw [Int64.toInt_inj.mp hxy]
      | list xs, list ys =>
        rw [hashBytes, hashBytes, length_eq_of_cmpList h, hashItems_of_cmp xs ys h hc]
      | map xs, map ys =>
        rw [hashBytes, hashBytes, length_eq_of_cmpEntries h, hashEntries_of_cmp xs ys h hc]

theorem hashItems_of_cmp : (xs ys : List Value) → cmpList xs ys = .eq → ConvertItems xs ys →
    hashItems xs = hashItems ys
  | [], [], _, _ => rfl
  | x :: xs, y :: ys, h, hc => by
    rw [cmpList, Ordering.then_eq_eq] at h
    rw [hashItems, hashItems, hash_of_cmp x y h.1 hc.1, hashItems_of_cmp xs ys h.2 hc.2]

theorem hashEntries_of_cmp : (xs ys : List (String × Value)) → cmpEntries xs ys = .eq →
    ConvertEntries xs ys → hashEntries xs = hashEntries ys
  | [], [], _, _ => rfl
  | (j, x) :: xs, (k, y) :: ys, h, hc => by
    rw [cmpEntries, Ordering.then_eq_eq, Ordering.then_eq_eq, compare_eq_iff_eq] at h
    rw [hashEntries, hashEntries, h.1.1, hash_of_cmp x y h.1.2 hc.1,
      hashEntries_of_cmp xs ys h.2 hc.2]

end

/-- Equal values feed the hasher the same bytes where their exact numbers of
different scales convert to floats exactly. -/
theorem equal_hash (a b : Value) (h : a.Eqv b) (hc : Converts a b) : hashBytes a = hashBytes b :=
  hash_of_cmp a b h hc

/-- One and a half, written with one place and with two. -/
theorem equal_hash_scales :
    hashBytes (list [decimal 15 1]) = hashBytes (list [decimal 150 2]) :=
  equal_hash _ _ (by decide) ⟨fun _ _ => by decide, trivial⟩

/-- `2^53 + 1` as an integer and as a decimal with one place. -/
theorem scales_hash_apart : ¬ ∀ a b : Value, a.Eqv b → hashBytes a = hashBytes b := by
  intro h
  have hk := h (i64 9007199254740993) (decimal 90071992547409930 1) (by decide)
  revert hk
  decide

end Adabt.Core.Value
