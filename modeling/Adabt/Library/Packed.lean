import Mathlib.Data.List.Basic
import Mathlib.Data.List.TakeDrop
import Mathlib.Data.Nat.Bitwise
import Mathlib.Data.Nat.Notation

/-! # Packed data

The set bits of a word, given up one by one, and rows of varying width laid end to
end. -/

set_option autoImplicit false

namespace Adabt.Library

/-! ## The set bits of a word

A word gives up its set bits one by one, the lowest first, as each is cleared by
the word below: `x &&& (x - 1)`. -/

section Bits

variable {w : ℕ}

/-- The set bits of a word, at most the given number of them. -/
def setBits : ℕ → BitVec w → List ℕ
  | 0, _ => []
  | n + 1, x => if x = 0#w then [] else x.ctz.toNat :: setBits n (x &&& (x - 1#w))

/-- A bit above a multiple of a smaller power does not notice the number before it. -/
theorem testBit_pred_of_not_dvd {n i : ℕ} (hn : n ≠ 0) (h : ¬ 2 ^ i ∣ n) :
    (n - 1).testBit i = n.testBit i := by
  obtain ⟨k, rfl⟩ := Nat.exists_eq_succ_of_ne_zero hn
  have hdiv : (k + 1) / 2 ^ i = k / 2 ^ i := by rw [Nat.succ_div, if_neg h, Nat.add_zero]
  rw [Nat.testBit_eq_decide_div_mod_eq, Nat.testBit_eq_decide_div_mod_eq, Nat.succ_eq_add_one,
    Nat.add_sub_cancel, hdiv]

/-- The lowest set bit is the one that the number before lacks. -/
theorem testBit_pred_of_dvd {n i : ℕ} (h : 2 ^ i ∣ n) (hi : n.testBit i = true) :
    (n - 1).testBit i = false := by
  have hn : n ≠ 0 := by
    rintro rfl
    simp at hi
  obtain ⟨k, rfl⟩ := Nat.exists_eq_succ_of_ne_zero hn
  rw [Nat.testBit_eq_decide_div_mod_eq, decide_eq_true_eq, Nat.succ_eq_add_one, Nat.succ_div,
    if_pos h] at hi
  rw [Nat.testBit_eq_decide_div_mod_eq, decide_eq_false_iff_not, Nat.succ_eq_add_one,
    Nat.add_sub_cancel]
  omega

theorem two_pow_ctz_dvd (x : BitVec w) : 2 ^ x.ctz.toNat ∣ x.toNat := by
  refine Nat.dvd_of_mod_eq_zero (Nat.eq_of_testBit_eq fun i => ?_)
  rw [Nat.testBit_mod_two_pow, Nat.zero_testBit]
  by_cases hi : i < x.ctz.toNat
  · have hlow := BitVec.getLsbD_false_of_lt_ctz hi
    simpa [BitVec.getLsbD] using fun _ => hlow
  · simp [hi]

/-- Clearing the lowest set bit leaves every other bit as it was. -/
theorem getLsbD_clearLowest {x : BitVec w} (hx : x ≠ 0#w) (i : ℕ) :
    (x &&& (x - 1#w)).getLsbD i = (x.getLsbD i && i ≠ x.ctz.toNat) := by
  have hpos : x.toNat ≠ 0 := fun h => hx (BitVec.eq_of_toNat_eq (by simpa using h))
  have hpred : (x - 1#w).toNat = x.toNat - 1 := by
    have hw : 1 < 2 ^ w ∨ w = 0 := by
      rcases Nat.eq_zero_or_pos w with h | h
      · exact .inr h
      · exact .inl (Nat.one_lt_two_pow h.ne')
    rcases hw with hw | rfl
    · rw [BitVec.toNat_sub_of_le]
      · rw [BitVec.toNat_ofNat, Nat.mod_eq_of_lt hw]
      · rw [BitVec.le_def, BitVec.toNat_ofNat, Nat.mod_eq_of_lt hw]
        omega
    · exact absurd (Subsingleton.elim x 0#0) hx
  rw [BitVec.getLsbD_and]
  by_cases hbit : x.getLsbD i = true
  · rw [hbit, Bool.true_and, Bool.true_and]
    have hcases : (x - 1#w).getLsbD i = (x.toNat - 1).testBit i := by rw [BitVec.getLsbD, hpred]
    rw [hcases]
    rcases Nat.lt_trichotomy i x.ctz.toNat with hlt | heq | hgt
    · rw [BitVec.getLsbD_false_of_lt_ctz hlt] at hbit
      exact absurd hbit Bool.false_ne_true
    · rw [testBit_pred_of_dvd (heq ▸ two_pow_ctz_dvd x) hbit]
      simp [heq]
    · have hlow : x.toNat.testBit x.ctz.toNat = true := BitVec.getLsbD_true_ctz_of_ne_zero hx
      have hndvd : ¬ 2 ^ i ∣ x.toNat := by
        rintro ⟨c, hc⟩
        rw [hc, Nat.testBit_two_pow_mul] at hlow
        simp [Nat.not_le.mpr hgt] at hlow
      have hkept : x.toNat.testBit i = true := hbit
      rw [testBit_pred_of_not_dvd hpos hndvd, hkept]
      simp [hgt.ne']
  · rw [Bool.eq_false_iff.mpr hbit, Bool.false_and, Bool.false_and]

/-- With a turn for every bit the loop gives the set bits, in ascending order. -/
theorem setBits_spec {n : ℕ} {x : BitVec w} (h : ∀ i, x.getLsbD i = true → w ≤ i + n) :
    (∀ i, i ∈ setBits n x ↔ x.getLsbD i = true) ∧ (setBits n x).Pairwise (· < ·) := by
  induction n generalizing x with
  | zero =>
    refine ⟨fun i => ⟨fun hi => absurd hi List.not_mem_nil, fun hi => ?_⟩, List.Pairwise.nil⟩
    have hw := BitVec.lt_of_getLsbD hi
    exact absurd (h i hi) (by omega)
  | succ n ih =>
    rw [setBits]
    split_ifs with hx
    · subst hx
      exact ⟨fun i => by simp, List.Pairwise.nil⟩
    · have hclear := getLsbD_clearLowest hx
      have hlow := BitVec.getLsbD_true_ctz_of_ne_zero hx
      have habove {i : ℕ} (hi : (x &&& (x - 1#w)).getLsbD i = true) : x.ctz.toNat < i := by
        rw [hclear, Bool.and_eq_true, decide_eq_true_eq] at hi
        refine lt_of_le_of_ne (Nat.le_of_not_lt fun hlt => ?_) (Ne.symm hi.2)
        rw [BitVec.getLsbD_false_of_lt_ctz hlt] at hi
        exact absurd hi.1 Bool.false_ne_true
      obtain ⟨hmem, hasc⟩ := @ih (x &&& (x - 1#w)) fun i hi => by
        have hfirst := h _ hlow
        have hlt := habove hi
        omega
      refine ⟨fun i => ?_, List.pairwise_cons.mpr ⟨fun i hi => habove ((hmem i).mp hi), hasc⟩⟩
      rw [List.mem_cons, hmem, hclear, Bool.and_eq_true, decide_eq_true_eq]
      by_cases hi : i = x.ctz.toNat
      · simp [hi, hlow]
      · simp [hi]

end Bits

/-! ## Packed rows and their directory

A directory that notes where each block of rows ends lets a row be found without
decoding all those before it. -/

variable {α β : Type} (encode : α → List β)

def packed (xs : List α) : List β := xs.flatMap encode

/-- Where a row starts. -/
def offset (xs : List α) (n : ℕ) : ℕ := (packed encode (xs.take n)).length

/-- Where each completed block of rows ends. -/
def directory (block : ℕ) (xs : List α) : List ℕ :=
  (List.range (xs.length / block)).map fun b => offset encode xs (block * (b + 1))

@[simp] theorem packed_nil : packed encode [] = [] := rfl

theorem packed_cons (x : α) (xs : List α) : packed encode (x :: xs) = encode x ++ packed encode xs :=
  List.flatMap_cons

theorem packed_append (xs ys : List α) :
    packed encode (xs ++ ys) = packed encode xs ++ packed encode ys := List.flatMap_append

theorem packed_push (xs : List α) (x : α) :
    packed encode (xs ++ [x]) = packed encode xs ++ encode x := by
  rw [packed_append, packed_cons, packed_nil, List.append_nil]

@[simp] theorem offset_zero (xs : List α) : offset encode xs 0 = 0 := rfl

theorem offset_length (xs : List α) : offset encode xs xs.length = (packed encode xs).length := by
  rw [offset, List.take_length]

theorem packed_split (xs : List α) (n : ℕ) :
    packed encode xs = packed encode (xs.take n) ++ packed encode (xs.drop n) := by
  rw [← packed_append, List.take_append_drop]

theorem drop_offset (xs : List α) (n : ℕ) :
    (packed encode xs).drop (offset encode xs n) = packed encode (xs.drop n) := by
  rw [packed_split encode xs n, offset, List.drop_left]

theorem offset_succ {xs : List α} {n : ℕ} (h : n < xs.length) :
    offset encode xs (n + 1) = offset encode xs n + (encode xs[n]).length := by
  rw [offset, ← List.take_concat_get' xs n h, packed_push, List.length_append, offset]

theorem offset_push {xs : List α} (x : α) {n : ℕ} (h : n ≤ xs.length) :
    offset encode (xs ++ [x]) n = offset encode xs n := by
  rw [offset, List.take_append_of_le_length h, offset]

theorem offset_mono (xs : List α) {m n : ℕ} (h : m ≤ n) :
    offset encode xs m ≤ offset encode xs n := by
  have hsplit := packed_split encode (xs.take n) m
  rw [List.take_take, Nat.min_eq_left h] at hsplit
  rw [offset, offset, hsplit, List.length_append]
  exact Nat.le_add_right _ _

/-- A row that takes room starts before the next one. -/
theorem offset_lt {xs : List α} (hpos : ∀ x, 0 < (encode x).length) {m n : ℕ} (h : m < n)
    (hm : m < xs.length) : offset encode xs m < offset encode xs n := by
  have hstep := offset_succ encode hm
  have hrest := offset_mono encode xs (show m + 1 ≤ n from h)
  have hroom := hpos xs[m]
  omega

theorem offset_le (xs : List α) (n : ℕ) : offset encode xs n ≤ (packed encode xs).length := by
  rw [packed_split encode xs n, offset, List.length_append]
  exact Nat.le_add_right _ _

theorem packed_length_le {xs : List α} {width : ℕ} (h : ∀ x ∈ xs, (encode x).length ≤ width) :
    (packed encode xs).length ≤ width * xs.length := by
  induction xs with
  | nil => simp
  | cons x xs ih =>
    have hx := h x List.mem_cons_self
    have hxs := ih fun y hy => h y (List.mem_cons_of_mem _ hy)
    rw [packed_cons, List.length_append, List.length_cons, Nat.mul_add]
    omega

/-- The directory grows with the row that completes a block. -/
theorem directory_push {block : ℕ} (hb : 0 < block) (xs : List α) (x : α) :
    directory encode block (xs ++ [x]) =
      if (xs.length + 1) % block = 0 then
        directory encode block xs ++ [(packed encode (xs ++ [x])).length]
      else directory encode block xs := by
  have hkeep : ∀ b ∈ List.range (xs.length / block),
      offset encode (xs ++ [x]) (block * (b + 1)) = offset encode xs (block * (b + 1)) := by
    intro b hmem
    apply offset_push
    calc block * (b + 1) ≤ block * (xs.length / block) :=
          Nat.mul_le_mul_left _ (List.mem_range.mp hmem)
      _ ≤ xs.length := Nat.mul_div_le _ _
  rw [directory, List.length_append, List.length_singleton, Nat.succ_div]
  split_ifs with hdvd hmod hmod
  · have hlast : block * (xs.length / block + 1) = (xs ++ [x]).length := by
      obtain ⟨k, hk⟩ := hdvd
      have hq : xs.length / block + 1 = k := by
        have hs := Nat.succ_div (a := xs.length) (b := block)
        rw [if_pos ⟨k, hk⟩, hk, Nat.mul_div_cancel_left _ hb] at hs
        exact hs.symm
      rw [hq, ← hk, List.length_append, List.length_singleton]
    rw [List.range_succ, List.map_append, List.map_congr_left hkeep, List.map_singleton, hlast,
      offset_length, directory]
  · exact absurd (Nat.mod_eq_zero_of_dvd hdvd) hmod
  · exact absurd (Nat.dvd_of_mod_eq_zero hmod) hdvd
  · rw [Nat.add_zero, List.map_congr_left hkeep, directory]

end Adabt.Library
