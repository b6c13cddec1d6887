import Adabt.Core.Error
import Adabt.Library.Bytes
import Adabt.Library.Fallible
import Mathlib.Data.Nat.Digits.Defs

/-! # LEB128 variable-length integers

Seven bits a byte, least significant group first; the high bit says that
another byte follows. -/

set_option autoImplicit false

namespace Adabt.Storage.Varint
open Adabt.Core Adabt.Library

def writeLoop : ℕ → ℕ → Bytes
  | 0, _ => []
  | fuel + 1, v =>
    if v / 128 = 0 then [UInt8.ofNat (v % 128)]
    else UInt8.ofNat (v % 128 + 128) :: writeLoop fuel (v / 128)

/-- A `u64` is exhausted after ten groups of seven bits. -/
def writeU64 (v : UInt64) : Bytes := writeLoop 10 v.toNat

def readLoop : ℕ → ℕ → ℕ → Bytes → Except Error (UInt64 × ℕ)
  | _, _, _, [] => .error (.corruption "truncated varint")
  | i, shift, result, byte :: rest =>
    if 10 ≤ i then .error (.corruption "varint longer than 10 bytes")
    else
      let payload := byte.toNat % 128
      if 64 ≤ shift ∨ (shift = 63 ∧ 1 < payload) then
        .error (.corruption "varint overflows u64")
      else
        let result := result ||| (payload <<< shift)
        if byte.toNat / 128 = 0 then .ok (UInt64.ofNat result, i + 1)
        else readLoop (i + 1) (shift + 7) result rest

/-- The value and the number of bytes it took. -/
def readU64 (buf : Bytes) : Except Error (UInt64 × ℕ) := readLoop 0 0 0 buf

theorem or_group {result shift payload : ℕ} (h : result < 2 ^ shift) :
    result ||| (payload <<< shift) = result + payload * 2 ^ shift := by
  rw [Nat.or_comm, ← Nat.shiftLeft_add_eq_or_of_lt h, Nat.shiftLeft_eq, Nat.add_comm]

theorem shift_free {i v : ℕ} (hi : i ≤ 9) (hv : v * 2 ^ (7 * i) < 2 ^ 64) :
    ¬(64 ≤ 7 * i ∨ (7 * i = 63 ∧ 1 < v % 128)) := by
  rintro (h | ⟨h, hp⟩)
  · omega
  · rw [h] at hv
    omega

theorem readLoop_writeLoop (fuel i result v : ℕ) (rest : Bytes) (hf : v < 128 ^ fuel)
    (hfuel : 0 < fuel) (hi : i + fuel = 10) (hr : result < 2 ^ (7 * i))
    (hv : v * 2 ^ (7 * i) < 2 ^ 64) :
    readLoop i (7 * i) result (writeLoop fuel v ++ rest) =
      .ok (UInt64.ofNat (result + v * 2 ^ (7 * i)), i + (writeLoop fuel v).length) := by
  induction fuel generalizing i result v with
  | zero => omega
  | succ fuel ih =>
    have hs := shift_free (by omega) hv
    by_cases hq : v / 128 = 0
    · have hlt : v < 128 := by omega
      have hb : (UInt8.ofNat (v % 128)).toNat = v := by simp; omega
      rw [writeLoop, if_pos hq, List.singleton_append, readLoop, hb, if_neg (by omega),
        if_neg hs, Nat.mod_eq_of_lt hlt, or_group hr, if_pos hq, List.length_singleton]
    · have hb : (UInt8.ofNat (v % 128 + 128)).toNat = v % 128 + 128 := by simp; omega
      have hp : (v % 128 + 128) % 128 = v % 128 := by omega
      have hsplit : v * 2 ^ (7 * i) =
          v % 128 * 2 ^ (7 * i) + v / 128 * 2 ^ (7 * (i + 1)) := by
        calc v * 2 ^ (7 * i) = (v % 128 + 128 * (v / 128)) * 2 ^ (7 * i) := by
              rw [Nat.mod_add_div]
          _ = v % 128 * 2 ^ (7 * i) + v / 128 * 2 ^ (7 * (i + 1)) := by
              rw [Nat.mul_add, Nat.pow_add]; ring
      have hfuel' : 0 < fuel := by
        by_contra h0
        have : fuel = 0 := by omega
        subst this
        omega
      have hr' : result + v % 128 * 2 ^ (7 * i) < 2 ^ (7 * (i + 1)) := by
        have hm : v % 128 ≤ 127 := by omega
        have := Nat.mul_le_mul_right (2 ^ (7 * i)) hm
        rw [Nat.mul_add, Nat.pow_add]
        omega
      have hrec := ih (i + 1) (result + v % 128 * 2 ^ (7 * i)) (v / 128)
        (by rw [Nat.pow_succ] at hf; omega) hfuel' (by omega) hr' (by omega)
      rw [writeLoop, if_neg hq, List.cons_append, readLoop, hb, if_neg (by omega), hp,
        if_neg hs, or_group hr, if_neg (by omega), show 7 * i + 7 = 7 * (i + 1) by ring, hrec,
        hsplit, List.length_cons, Nat.add_assoc, Nat.add_assoc, Nat.add_comm 1]

/-- Reading back a written integer gives it and leaves what follows it. -/
theorem readU64_writeU64 (v : UInt64) (rest : Bytes) :
    readU64 (writeU64 v ++ rest) = .ok (v, (writeU64 v).length) := by
  have hv : v.toNat < 2 ^ 64 := v.toNat_lt
  have h := readLoop_writeLoop 10 0 0 v.toNat rest (by omega) (by omega) (by omega) (by simp)
    (by simpa using hv)
  simpa [readU64, writeU64] using h

theorem readLoop_used {i shift result n : ℕ} {v : UInt64} {buf : Bytes}
    (h : readLoop i shift result buf = .ok (v, n)) : i < n ∧ n ≤ i + buf.length := by
  induction buf generalizing i shift result with
  | nil => cases h
  | cons byte rest ih =>
    rw [readLoop] at h
    dsimp only at h
    split_ifs at h with hlong hover hlast
    · cases h
      rw [List.length_cons]
      omega
    · have hrest := ih h
      rw [List.length_cons]
      omega

/-- What is read lies within the bytes that are there. -/
theorem readU64_used {buf : Bytes} {v : UInt64} {n : ℕ} (h : readU64 buf = .ok (v, n)) :
    0 < n ∧ n ≤ buf.length := by
  have hused := readLoop_used h
  omega

def encodedLenLoop : ℕ → ℕ → ℕ
  | 0, _ => 0
  | fuel + 1, v => if v = 0 then 0 else 1 + encodedLenLoop fuel (v / 128)

def encodedLen (v : UInt64) : ℕ := 1 + encodedLenLoop 9 (v.toNat / 128)

theorem writeLoop_length (fuel v : ℕ) :
    (writeLoop (fuel + 1) v).length = 1 + encodedLenLoop fuel (v / 128) := by
  induction fuel generalizing v with
  | zero => rw [writeLoop]; split <;> simp [writeLoop, encodedLenLoop]
  | succ fuel ih =>
    rw [writeLoop, encodedLenLoop]
    split
    · simp
    · rw [List.length_cons, ih, Nat.add_comm]

theorem writeU64_length (v : UInt64) : (writeU64 v).length = encodedLen v :=
  writeLoop_length 9 v.toNat

theorem writeU64_length_pos (v : UInt64) : 0 < (writeU64 v).length := by
  rw [writeU64, writeLoop]
  split <;> simp

/-! ## What a read says -/

/-- The groups of seven bits up to the first byte that no other follows. -/
def groups : Bytes → Option (List ℕ)
  | [] => none
  | byte :: rest =>
    if byte.toNat < 128 then some [byte.toNat] else (groups rest).map (byte.toNat % 128 :: ·)

theorem groups_last {byte : UInt8} (h : byte.toNat < 128) (rest : Bytes) :
    groups (byte :: rest) = some [byte.toNat] := if_pos h

theorem groups_more {byte : UInt8} (h : ¬byte.toNat < 128) (rest : Bytes) :
    groups (byte :: rest) = (groups rest).map (byte.toNat % 128 :: ·) := if_neg h

theorem groups_ne_nil {buf : Bytes} {gs : List ℕ} (h : groups buf = some gs) : gs ≠ [] := by
  cases buf with
  | nil => cases h
  | cons byte rest =>
    by_cases hb : byte.toNat < 128
    · rw [groups_last hb] at h
      cases h
      exact List.cons_ne_nil _ _
    · rw [groups_more hb] at h
      obtain ⟨gs', -, rfl⟩ := Option.map_eq_some_iff.mp h
      exact List.cons_ne_nil _ _

/-- What fits beside the groups before it, of a group that may still be read. -/
theorem group_fits {i result payload : ℕ} (hi : i ≤ 9) (hr : result < 2 ^ (7 * i))
    (hp : payload < 128) (hlast : ¬(7 * i = 63 ∧ 1 < payload)) :
    result + payload * 2 ^ (7 * i) < 2 ^ (7 * (i + 1)) ∧
      result + payload * 2 ^ (7 * i) < 2 ^ 64 := by
  have hnext : result + payload * 2 ^ (7 * i) < 2 ^ (7 * (i + 1)) := by
    have hm := Nat.mul_le_mul_right (2 ^ (7 * i)) (Nat.le_of_lt_succ hp)
    rw [Nat.mul_add, Nat.pow_add]
    omega
  refine ⟨hnext, ?_⟩
  rcases Nat.lt_or_ge i 9 with h | h
  · exact hnext.trans_le (Nat.pow_le_pow_right (by decide) (by omega))
  · obtain rfl : i = 9 := by omega
    have hone : payload ≤ 1 := by omega
    have hm := Nat.mul_le_mul_right (2 ^ 63) hone
    omega

theorem readLoop_iff {i result : ℕ} (hr : result < 2 ^ (7 * i)) (buf : Bytes) (v : UInt64) (n : ℕ) :
    readLoop i (7 * i) result buf = .ok (v, n) ↔ ∃ gs, groups buf = some gs ∧ i + gs.length = n ∧
      n ≤ 10 ∧ result + Nat.ofDigits 128 gs * 2 ^ (7 * i) = v.toNat := by
  induction buf generalizing i result with
  | nil => exact iff_of_false (fun h => by cases h) fun ⟨_, h, _⟩ => by cases h
  | cons byte rest ih =>
    have hv := v.toNat_lt
    rw [readLoop]
    dsimp only
    split_ifs with hlong hover hlast
    · refine iff_of_false (fun h => by cases h) ?_
      rintro ⟨gs, hgs, hlen, hn, -⟩
      have := List.length_pos_of_ne_nil (groups_ne_nil hgs)
      omega
    · -- No byte that begins with so large a tenth group is below `2 ^ 64`.
      refine iff_of_false (fun h => by cases h) ?_
      rintro ⟨gs, hgs, hlen, hn, hsum⟩
      obtain ⟨h63, hp⟩ : 7 * i = 63 ∧ 1 < byte.toNat % 128 := by omega
      have hge : byte.toNat % 128 ≤ Nat.ofDigits 128 gs := by
        by_cases hb : byte.toNat < 128
        · rw [groups_last hb] at hgs
          cases hgs
          rw [Nat.ofDigits_singleton]
          omega
        · rw [groups_more hb] at hgs
          obtain ⟨gs', -, rfl⟩ := Option.map_eq_some_iff.mp hgs
          rw [Nat.ofDigits_cons]
          exact Nat.le_add_right _ _
      have hm := Nat.mul_le_mul_right (2 ^ 63) (Nat.le_trans hp hge)
      rw [h63] at hsum
      omega
    · have hb : byte.toNat < 128 := by omega
      have hfits := (group_fits (by omega) hr (Nat.mod_lt _ (by decide)) fun h => hover (.inr h)).2
      rw [or_group hr, groups_last hb]
      rw [Nat.mod_eq_of_lt hb] at hfits ⊢
      constructor
      · intro h
        cases h
        exact ⟨_, rfl, rfl, by omega, by
          rw [Nat.ofDigits_singleton, UInt64.toNat_ofNat_of_lt' hfits]⟩
      · rintro ⟨gs, hgs, rfl, -, hsum⟩
        cases hgs
        rw [Nat.ofDigits_singleton] at hsum
        rw [hsum, UInt64.ofNat_toNat]
        rfl
    · have hb : ¬byte.toNat < 128 := by omega
      have hfits := (group_fits (by omega) hr (Nat.mod_lt _ (by decide)) fun h => hover (.inr h)).1
      rw [or_group hr, ← Nat.mul_succ, ih hfits, groups_more hb]
      have hsplit : ∀ m : ℕ, result + byte.toNat % 128 * 2 ^ (7 * i) + m * 2 ^ (7 * (i + 1)) =
          result + (byte.toNat % 128 + 128 * m) * 2 ^ (7 * i) := fun m => by
        rw [Nat.mul_succ, Nat.pow_add]
        ring
      constructor
      · rintro ⟨gs, hgs, hlen, hn, hsum⟩
        refine ⟨_, by rw [hgs]; rfl, by rw [List.length_cons]; omega, hn, ?_⟩
        rw [Nat.ofDigits_cons, ← hsum, hsplit]
      · rintro ⟨gs, hgs, hlen, hn, hsum⟩
        obtain ⟨gs', hgs', rfl⟩ := Option.map_eq_some_iff.mp hgs
        refine ⟨gs', hgs', by rw [List.length_cons] at hlen; omega, hn, ?_⟩
        rw [Nat.ofDigits_cons] at hsum
        rw [← hsum, hsplit]

/-- A read gives the value of the groups up to the last, of ten at most that fit a `u64`. -/
theorem readU64_iff (buf : Bytes) (v : UInt64) (n : ℕ) : readU64 buf = .ok (v, n) ↔
    ∃ gs, groups buf = some gs ∧ gs.length = n ∧ n ≤ 10 ∧ Nat.ofDigits 128 gs = v.toNat := by
  have h := readLoop_iff (i := 0) (Nat.two_pow_pos 0) buf v n
  rw [readU64]
  simpa only [Nat.mul_zero, Nat.zero_add, Nat.pow_zero, Nat.mul_one] using h

theorem groups_append {buf : Bytes} {gs : List ℕ} (h : groups buf = some gs) (rest : Bytes) :
    groups (buf ++ rest) = some gs := by
  induction buf generalizing gs with
  | nil => cases h
  | cons byte more ih =>
    by_cases hb : byte.toNat < 128
    · rw [List.cons_append, groups_last hb]
      rwa [groups_last hb] at h
    · rw [groups_more hb] at h
      obtain ⟨gs', hgs', rfl⟩ := Option.map_eq_some_iff.mp h
      rw [List.cons_append, groups_more hb, ih hgs']
      rfl

theorem readU64_append {buf : Bytes} {v : UInt64} {n : ℕ} (h : readU64 buf = .ok (v, n))
    (rest : Bytes) : readU64 (buf ++ rest) = .ok (v, n) := by
  obtain ⟨gs, hgs, hread⟩ := (readU64_iff buf v n).mp h
  exact (readU64_iff (buf ++ rest) v n).mpr ⟨gs, groups_append hgs rest, hread⟩

/-- What is written is read as a whole or not at all. -/
theorem readU64_part {v : UInt64} {part tail : Bytes} (h : writeU64 v = part ++ tail)
    (htail : tail ≠ []) : ∃ e, readU64 part = .error e := by
  cases hread : readU64 part with
  | error e => exact ⟨e, rfl⟩
  | ok r =>
    obtain ⟨w, n⟩ := r
    have hwhole := readU64_writeU64 v []
    rw [List.append_nil, h, readU64_append hread] at hwhole
    cases hwhole
    have hused := (readU64_used hread).2
    have hpos := List.length_pos_of_ne_nil htail
    rw [List.length_append] at hused
    omega

/-! ## The arithmetic of the reader -/

/-- `<<` on a `u64`: past its width it panics, or takes the amount modulo the width. -/
def shiftLeft (b : Build) (x : UInt64) (n : ℕ) : Except Fault UInt64 :=
  if n < 64 then .ok (x <<< UInt64.ofNat n)
  else match b with
    | .checked => .error (.panicked "attempt to shift left with overflow")
    | .release => .ok (x <<< UInt64.ofNat (n % 64))

theorem shiftLeft_ok (b : Build) (x : UInt64) {n : ℕ} (h : n < 64) :
    shiftLeft b x n = .ok (x <<< UInt64.ofNat n) := if_pos h

/-- `readLoop` with the result in a `u64`. -/
def readWordLoop (b : Build) : ℕ → ℕ → UInt64 → Bytes → Except Fault (UInt64 × ℕ)
  | _, _, _, [] => .error (.error (.corruption "truncated varint"))
  | i, shift, result, byte :: rest =>
    if 10 ≤ i then .error (.error (.corruption "varint longer than 10 bytes"))
    else
      let payload := UInt64.ofNat (byte.toNat % 128)
      if 64 ≤ shift ∨ (shift = 63 ∧ 1 < payload) then
        .error (.error (.corruption "varint overflows u64"))
      else do
        let group ← shiftLeft b payload shift
        let result := result ||| group
        if byte.toNat / 128 = 0 then .ok (result, i + 1)
        else readWordLoop b (i + 1) (shift + 7) result rest

def readWord (b : Build) (buf : Bytes) : Except Fault (UInt64 × ℕ) := readWordLoop b 0 0 0 buf

theorem toNat_payload (byte : UInt8) :
    (UInt64.ofNat (byte.toNat % 128)).toNat = byte.toNat % 128 := by
  have hlt := Nat.mod_lt byte.toNat (show 0 < 128 by decide)
  exact UInt64.toNat_ofNat_of_lt' (hlt.trans (by decide))

/-- No bit of a group is shifted out, and no shift is past the width. -/
theorem readWordLoop_eq (b : Build) {i : ℕ} {result : UInt64} (hr : result.toNat < 2 ^ (7 * i))
    (buf : Bytes) : readWordLoop b i (7 * i) result buf =
      (readLoop i (7 * i) result.toNat buf).mapError .error := by
  induction buf generalizing i result with
  | nil => rfl
  | cons byte rest ih =>
    have hpayload := toNat_payload byte
    have hone : (1 < UInt64.ofNat (byte.toNat % 128)) ↔ 1 < byte.toNat % 128 := by
      rw [UInt64.lt_iff_toNat_lt, hpayload]
      rfl
    rw [readWordLoop, readLoop]
    simp only [hone]
    split_ifs with hlong hover hlast
    · rfl
    · rfl
    all_goals
      have hwidth : 7 * i < 64 := by omega
      have hfits := group_fits (by omega) hr (Nat.mod_lt byte.toNat (show 0 < 128 by decide))
        fun h => hover (.inr h)
      have hgroup : (result ||| UInt64.ofNat (byte.toNat % 128) <<< UInt64.ofNat (7 * i)).toNat =
          result.toNat ||| (byte.toNat % 128) <<< (7 * i) := by
        have hshift : (UInt64.ofNat (7 * i)).toNat % 64 = 7 * i := by
          rw [UInt64.toNat_ofNat_of_lt' (hwidth.trans (by decide)), Nat.mod_eq_of_lt hwidth]
        rw [UInt64.toNat_or, UInt64.toNat_shiftLeft, hpayload, hshift, Nat.mod_eq_of_lt]
        rw [Nat.shiftLeft_eq]
        omega
      rw [shiftLeft_ok b _ hwidth, ok_bind]
    · rw [← hgroup, UInt64.ofNat_toNat]
      rfl
    · rw [← hgroup]
      refine ih ?_
      rw [hgroup, or_group hr]
      exact hfits.1

theorem readWord_eq (b : Build) (buf : Bytes) :
    readWord b buf = (readU64 buf).mapError .error := by
  have hzero : (0 : UInt64).toNat < 2 ^ (7 * 0) := Nat.two_pow_pos 0
  exact readWordLoop_eq b hzero buf

/-- A varint is read exactly, or refused. -/
theorem varint_exact :
    (∀ v rest, readU64 (writeU64 v ++ rest) = .ok (v, encodedLen v)) ∧
      (∀ v part tail, writeU64 v = part ++ tail → tail ≠ [] → ∃ e, readU64 part = .error e) ∧
      (∀ buf v n, readU64 buf = .ok (v, n) ↔ ∃ gs, groups buf = some gs ∧ gs.length = n ∧
        n ≤ 10 ∧ Nat.ofDigits 128 gs = v.toNat) ∧
      ∀ b buf, readWord b buf = (readU64 buf).mapError .error := by
  refine ⟨fun v rest => ?_, fun v part tail => readU64_part, readU64_iff, readWord_eq⟩
  rw [← writeU64_length]
  exact readU64_writeU64 v rest

end Adabt.Storage.Varint
