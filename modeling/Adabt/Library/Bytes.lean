import Mathlib.Data.List.Basic
import Mathlib.Tactic.Ring

/-! # Byte strings

A natural number written in a fixed number of bytes, least significant first,
and read back; and ranges of a buffer read and overwritten. -/

set_option autoImplicit false

namespace Adabt.Library

abbrev Bytes := List UInt8

def leBytes : Nat → Nat → Bytes
  | 0, _ => []
  | n + 1, v => UInt8.ofNat v :: leBytes n (v / 256)

def ofLeBytes : Bytes → Nat
  | [] => 0
  | b :: rest => b.toNat + 256 * ofLeBytes rest

@[simp] theorem leBytes_length (n v : Nat) : (leBytes n v).length = n := by
  induction n generalizing v with
  | zero => rfl
  | succ n ih => rw [leBytes, List.length_cons, ih]

theorem ofLeBytes_leBytes_mod (n v : Nat) : ofLeBytes (leBytes n v) = v % 256 ^ n := by
  induction n generalizing v with
  | zero => rw [leBytes, ofLeBytes, Nat.pow_zero, Nat.mod_one]
  | succ n ih =>
    have hb : (UInt8.ofNat v).toNat = v % 256 := by simp
    rw [leBytes, ofLeBytes, ih, hb, Nat.pow_succ', Nat.mod_mul]

theorem ofLeBytes_leBytes {n v : Nat} (h : v < 256 ^ n) : ofLeBytes (leBytes n v) = v := by
  rw [ofLeBytes_leBytes_mod, Nat.mod_eq_of_lt h]

theorem ofLeBytes_lt (bs : Bytes) : ofLeBytes bs < 256 ^ bs.length := by
  induction bs with
  | nil => decide
  | cons b rest ih =>
    have hb : b.toNat < 256 := b.toNat_lt
    rw [ofLeBytes, List.length_cons, Nat.pow_succ']
    omega

theorem leBytes_zero (n : Nat) : leBytes n 0 = List.replicate n 0 := by
  induction n with
  | zero => rfl
  | succ n ih => rw [leBytes, Nat.zero_div, ih, List.replicate_succ]; rfl

theorem ofLeBytes_replicate_zero (n : Nat) : ofLeBytes (List.replicate n 0) = 0 := by
  rw [← leBytes_zero, ofLeBytes_leBytes_mod, Nat.zero_mod]

theorem ofLeBytes_append (xs ys : Bytes) :
    ofLeBytes (xs ++ ys) = ofLeBytes xs + 256 ^ xs.length * ofLeBytes ys := by
  induction xs with
  | nil => simp [ofLeBytes]
  | cons x xs ih =>
    rw [List.cons_append, ofLeBytes, ofLeBytes, ih, List.length_cons, Nat.pow_succ']
    ring

theorem leBytes_ofLeBytes (bs : Bytes) : leBytes bs.length (ofLeBytes bs) = bs := by
  induction bs with
  | nil => rfl
  | cons b rest ih =>
    have hb : b.toNat < 256 := b.toNat_lt
    have hd : (b.toNat + 256 * ofLeBytes rest) / 256 = ofLeBytes rest := by omega
    have hm : UInt8.ofNat (b.toNat + 256 * ofLeBytes rest) = b := by
      apply UInt8.toNat_inj.mp
      rw [UInt8.toNat_ofNat']
      omega
    rw [ofLeBytes, List.length_cons, leBytes, hd, hm, ih]

theorem leBytes_injective {n v w : Nat} (hv : v < 256 ^ n) (hw : w < 256 ^ n)
    (h : leBytes n v = leBytes n w) : v = w := by
  rw [← ofLeBytes_leBytes hv, h, ofLeBytes_leBytes hw]

end Adabt.Library

/-! ## Reading and overwriting ranges of a buffer

A read sees the last write to its range, and no write to a range apart from it. -/

namespace Adabt.Library

def slice (b : Bytes) (start n : ℕ) : Bytes := (b.drop start).take n

/-- `b[start..start + xs.len()].copy_from_slice(xs)`. -/
def splice (b : Bytes) (start : ℕ) (xs : Bytes) : Bytes :=
  b.take start ++ xs ++ b.drop (start + xs.length)

variable {b xs : Bytes} {start n : ℕ}

theorem length_slice (h : start + n ≤ b.length) : (slice b start n).length = n := by
  rw [slice, List.length_take, List.length_drop]
  omega

theorem length_splice (h : start + xs.length ≤ b.length) :
    (splice b start xs).length = b.length := by
  simp only [splice, List.length_append, List.length_take, List.length_drop]
  omega

theorem getElem?_slice (i : ℕ) : (slice b start n)[i]? = if i < n then b[start + i]? else none := by
  rw [slice, List.getElem?_take, List.getElem?_drop]

theorem getElem?_splice (h : start + xs.length ≤ b.length) (i : ℕ) :
    (splice b start xs)[i]? =
      if i < start then b[i]? else if i < start + xs.length then xs[i - start]? else b[i]? := by
  have hlen : (b.take start).length = start := List.length_take_of_le (by omega)
  rw [splice, List.append_assoc, List.getElem?_append, hlen]
  by_cases hi : i < start
  · rw [if_pos hi, if_pos hi, List.getElem?_take, if_pos hi]
  · rw [if_neg hi, if_neg hi, List.getElem?_append]
    by_cases hx : i - start < xs.length
    · rw [if_pos hx, if_pos (by omega)]
    · rw [if_neg hx, if_neg (by omega), List.getElem?_drop]
      congr 1
      omega

theorem slice_splice_same (h : start + xs.length ≤ b.length) :
    slice (splice b start xs) start xs.length = xs := by
  apply List.ext_getElem?
  intro i
  rw [getElem?_slice, getElem?_splice h]
  by_cases hi : i < xs.length
  · rw [if_pos hi, if_neg (by omega), if_pos (by omega), Nat.add_sub_cancel_left]
  · rw [if_neg hi, List.getElem?_eq_none (by omega)]

theorem slice_splice_apart (h : start + xs.length ≤ b.length) {at' : ℕ}
    (hd : at' + n ≤ start ∨ start + xs.length ≤ at') :
    slice (splice b start xs) at' n = slice b at' n := by
  apply List.ext_getElem?
  intro i
  rw [getElem?_slice, getElem?_slice]
  by_cases hi : i < n
  · rw [if_pos hi, if_pos hi, getElem?_splice h]
    by_cases hlt : at' + i < start
    · rw [if_pos hlt]
    · rw [if_neg hlt, if_neg (by omega)]
  · rw [if_neg hi, if_neg hi]

theorem slice_splice_within (b xs : Bytes) (start n k : ℕ) (h : start + xs.length ≤ b.length)
    (hk : k + n ≤ xs.length) :
    slice (splice b start xs) (start + k) n = slice xs k n := by
  apply List.ext_getElem?
  intro i
  rw [getElem?_slice, getElem?_slice]
  by_cases hi : i < n
  · rw [if_pos hi, if_pos hi, getElem?_splice h, if_neg (by omega), if_pos (by omega)]
    congr 1
    omega
  · rw [if_neg hi, if_neg hi]

theorem slice_replicate (c : UInt8) {m : ℕ} (h : start + n ≤ m) :
    slice (List.replicate m c) start n = List.replicate n c := by
  rw [slice, List.drop_replicate, List.take_replicate]
  congr 1
  omega

end Adabt.Library
