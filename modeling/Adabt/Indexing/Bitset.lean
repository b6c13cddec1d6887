import Adabt.Indexing.Index
import Adabt.Library.Packed
import Adabt.Library.Selection

/-! # Sets of ids as bits

One bit for each record id, packed 64 to a word; there are no more words than the
highest id set so far asks for. -/

set_option autoImplicit false

namespace Adabt.Indexing
open Adabt.Core Adabt.Library

structure Bitset where
  words : List (BitVec 64)
  bounded : words.length ≤ 2 ^ 58

namespace Bitset

def empty : Bitset := ⟨[], Nat.zero_le _⟩

def wordOf (id : RecordId) : ℕ := id.val / 64

def bitOf (id : RecordId) : BitVec 64 := 1#64 <<< (id.val % 64)

theorem wordOf_lt (id : RecordId) : wordOf id < 2 ^ 58 := by
  rw [wordOf]
  omega

/-- `resize` with zeroes, to a length that holds the word. -/
def grown (words : List (BitVec 64)) (word : ℕ) : List (BitVec 64) :=
  if words.length ≤ word then words ++ List.replicate (word + 1 - words.length) 0#64 else words

theorem grown_length (words : List (BitVec 64)) (word : ℕ) :
    (grown words word).length = max words.length (word + 1) := by
  rw [grown]
  split_ifs with h
  · rw [List.length_append, List.length_replicate]
    omega
  · omega

def set (b : Bitset) (id : RecordId) : Bitset :=
  ⟨(grown b.words (wordOf id)).modify (wordOf id) (· ||| bitOf id), by
    rw [List.length_modify, grown_length]
    exact max_le b.bounded (wordOf_lt id)⟩

def clear (b : Bitset) (id : RecordId) : Bitset :=
  ⟨b.words.modify (wordOf id) (· &&& ~~~bitOf id), by
    rw [List.length_modify]
    exact b.bounded⟩

def get (b : Bitset) (id : RecordId) : Bool :=
  match b.words[wordOf id]? with
  | some w => w &&& bitOf id ≠ 0#64
  | none => false

def isEmpty (b : Bitset) : Bool := b.words.all (· = 0#64)

def ids (b : Bitset) : List RecordId :=
  b.words.zipIdx.flatMap fun w => (setBits 64 w.1).map fun tz => Fin.ofNat (2 ^ 64) (w.2 * 64 + tz)

/-! ## The bits -/

theorem getLsbD_bitOf (id : RecordId) {i : ℕ} (hi : i < 64) :
    (bitOf id).getLsbD i = decide (i = id.val % 64) := by
  rw [bitOf, BitVec.getLsbD_shiftLeft, BitVec.getLsbD_one]
  by_cases h : i = id.val % 64
  · simp [h, Nat.mod_lt]
  · rcases Nat.lt_or_gt_of_ne h with h | h
    · simp [h, h.ne]
    · have hpos : ¬ i - id.val % 64 = 0 := by omega
      simp [hi, h.ne', Nat.not_lt.mpr h.le, hpos]

theorem and_bitOf_ne_zero (w : BitVec 64) (id : RecordId) :
    decide (w &&& bitOf id ≠ 0#64) = w.getLsbD (id.val % 64) := by
  have hlt : id.val % 64 < 64 := Nat.mod_lt _ (by decide)
  cases hbit : w.getLsbD (id.val % 64) with
  | true =>
    refine decide_eq_true fun hzero => ?_
    have hget := congrArg (BitVec.getLsbD · (id.val % 64)) hzero
    simp [BitVec.getLsbD_and, hbit, getLsbD_bitOf id hlt] at hget
  | false =>
    refine decide_eq_false (not_not_intro (BitVec.eq_of_getLsbD_eq fun i hi => ?_))
    rw [BitVec.getLsbD_and, getLsbD_bitOf id hi, BitVec.getLsbD_zero]
    by_cases h : i = id.val % 64
    · rw [h, hbit, Bool.false_and]
    · rw [decide_eq_false h, Bool.and_false]

/-- A set holds an id when its bit is set in its word. -/
theorem get_eq (b : Bitset) (id : RecordId) :
    b.get id = (b.words[wordOf id]?.getD 0#64).getLsbD (id.val % 64) := by
  rw [get]
  cases b.words[wordOf id]? with
  | some w => exact and_bitOf_ne_zero w id
  | none => rw [Option.getD_none, BitVec.getLsbD_zero]

theorem decide_eq_word_bit (a b : RecordId) :
    decide (a = b) = (decide (wordOf a = wordOf b) && decide (a.val % 64 = b.val % 64)) := by
  rw [← Bool.decide_and, decide_eq_decide, Fin.ext_iff, wordOf, wordOf]
  omega

theorem word_grown (words : List (BitVec 64)) (word i : ℕ) :
    (grown words word)[i]?.getD 0#64 = words[i]?.getD 0#64 := by
  rw [grown]
  split_ifs with h
  · rw [List.getElem?_append]
    split_ifs with hi
    · rfl
    · rw [List.getElem?_eq_none (Nat.le_of_not_lt hi), List.getElem?_replicate]
      split_ifs <;> rfl
  · rfl

theorem get_set (b : Bitset) (id j : RecordId) : (b.set id).get j = (decide (j = id) || b.get j) := by
  have hlt : j.val % 64 < 64 := Nat.mod_lt _ (by decide)
  rw [get_eq, get_eq]
  change (((grown b.words (wordOf id)).modify (wordOf id) (· ||| bitOf id))[wordOf j]?.getD
    0#64).getLsbD (j.val % 64) = _
  rw [List.getElem?_modify, decide_eq_word_bit]
  by_cases hw : wordOf id = wordOf j
  · have hin : wordOf j < (grown b.words (wordOf id)).length := by
      rw [grown_length, hw]
      omega
    have hword := word_grown b.words (wordOf id) (wordOf j)
    rw [List.getElem?_eq_getElem hin, Option.getD_some] at hword
    rw [List.getElem?_eq_getElem hin, Option.map_eq_map, Option.map_some, Option.getD_some,
      if_pos hw, BitVec.getLsbD_or, hword, getLsbD_bitOf id hlt, Bool.or_comm]
    simp [hw]
  · simp only [if_neg hw, Option.map_eq_map, Option.map_id', word_grown]
    simp [Ne.symm hw]

theorem get_clear (b : Bitset) (id j : RecordId) :
    (b.clear id).get j = (!decide (j = id) && b.get j) := by
  have hlt : j.val % 64 < 64 := Nat.mod_lt _ (by decide)
  rw [get_eq, get_eq]
  change ((b.words.modify (wordOf id) (· &&& ~~~bitOf id))[wordOf j]?.getD 0#64).getLsbD
    (j.val % 64) = _
  rw [List.getElem?_modify, decide_eq_word_bit]
  cases b.words[wordOf j]? with
  | none => simp
  | some w =>
    by_cases hw : wordOf id = wordOf j
    · have hlow : decide (j.val % 64 < 64) = true := decide_eq_true hlt
      simp only [hw, if_true, Option.map_eq_map, Option.map_some, Option.getD_some,
        BitVec.getLsbD_and, BitVec.getLsbD_not, getLsbD_bitOf id hlt, hlow, Bool.true_and,
        decide_true]
      exact Bool.and_comm _ _
    · simp [hw, Ne.symm hw]

theorem mem_setBits {w : BitVec 64} {i : ℕ} : i ∈ setBits 64 w ↔ w.getLsbD i = true :=
  (setBits_spec fun _ _ => Nat.le_add_left _ _).1 i

/-- The id of a bit does not wrap. -/
theorem val_id {b : Bitset} {w : BitVec 64 × ℕ} {tz : ℕ} (hw : w ∈ b.words.zipIdx)
    (htz : tz ∈ setBits 64 w.1) :
    tz < 64 ∧ (Fin.ofNat (2 ^ 64) (w.2 * 64 + tz) : RecordId).val = w.2 * 64 + tz := by
  have hbit : tz < 64 := BitVec.lt_of_getLsbD (mem_setBits.mp htz)
  obtain ⟨hword, -⟩ := List.getElem?_eq_some_iff.mp (List.mem_zipIdx_iff_getElem?.mp hw)
  have hbound := b.bounded
  refine ⟨hbit, Nat.mod_eq_of_lt ?_⟩
  omega

theorem mem_ids (b : Bitset) (id : RecordId) : id ∈ b.ids ↔ b.get id = true := by
  rw [ids, List.mem_flatMap, get_eq]
  constructor
  · rintro ⟨w, hw, hid⟩
    obtain ⟨tz, htz, rfl⟩ := List.mem_map.mp hid
    obtain ⟨hbit, hval⟩ := val_id hw htz
    have hword : (w.2 * 64 + tz) / 64 = w.2 := by omega
    have hrest : (w.2 * 64 + tz) % 64 = tz := by omega
    rw [wordOf, hval, hword, hrest, List.mem_zipIdx_iff_getElem?.mp hw, Option.getD_some]
    exact mem_setBits.mp htz
  · intro hget
    cases hw : b.words[wordOf id]? with
    | none => simp [hw] at hget
    | some w =>
      rw [hw, Option.getD_some] at hget
      have hmem : (w, wordOf id) ∈ b.words.zipIdx := List.mem_zipIdx_iff_getElem?.mpr hw
      refine ⟨(w, wordOf id), hmem, List.mem_map.mpr ⟨_, mem_setBits.mpr hget, Fin.ext ?_⟩⟩
      rw [(val_id hmem (mem_setBits.mpr hget)).2, wordOf]
      exact Nat.div_add_mod' id.val 64

theorem ids_ascending (b : Bitset) : b.ids.Pairwise (· < ·) := by
  have hwords : b.words.zipIdx.Pairwise fun a c => a.2 < c.2 := by
    rw [← List.pairwise_map, List.zipIdx_map_snd]
    exact List.pairwise_lt_range'
  refine List.pairwise_flatMap.mpr ⟨fun w hw => ?_, hwords.imp_of_mem fun ha hc hlt => ?_⟩
  · have hasc : (setBits 64 w.1).Pairwise (· < ·) :=
      (setBits_spec fun _ _ => Nat.le_add_left _ _).2
    refine List.pairwise_map.mpr (hasc.imp_of_mem fun hi hj hlt => ?_)
    rw [Fin.lt_def, (val_id hw hi).2, (val_id hw hj).2]
    omega
  · intro x hx y hy
    obtain ⟨i, hi, rfl⟩ := List.mem_map.mp hx
    obtain ⟨j, hj, rfl⟩ := List.mem_map.mp hy
    obtain ⟨hbit, hval⟩ := val_id ha hi
    rw [Fin.lt_def, hval, (val_id hc hj).2]
    omega

/-! ## A set of bits as a sorted vector -/

@[simp] theorem get_empty (id : RecordId) : empty.get id = false := rfl

theorem isEmpty_iff (b : Bitset) : b.isEmpty = true ↔ b.ids = [] := by
  rw [isEmpty, List.all_eq_true, List.eq_nil_iff_forall_not_mem]
  constructor
  · intro hzero id hid
    rw [mem_ids, get_eq] at hid
    cases hw : b.words[wordOf id]? with
    | none => simp [hw] at hid
    | some w =>
      have hword := of_decide_eq_true (hzero w (List.mem_of_getElem? hw))
      simp [hw, hword] at hid
  · intro hnone w hw
    refine decide_eq_true (BitVec.eq_of_getLsbD_eq fun i hi => ?_)
    rw [BitVec.getLsbD_zero, Bool.eq_false_iff]
    intro hbit
    obtain ⟨n, hn, rfl⟩ := List.getElem_of_mem hw
    have hmem : (b.words[n], n) ∈ b.words.zipIdx :=
      List.mem_zipIdx_iff_getElem?.mpr (List.getElem?_eq_getElem hn)
    exact hnone _ (List.mem_flatMap.mpr
      ⟨_, hmem, List.mem_map.mpr ⟨i, mem_setBits.mpr hbit, rfl⟩⟩)

@[simp] theorem ids_empty : empty.ids = [] := rfl

end Bitset

end Adabt.Indexing
