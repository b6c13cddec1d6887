import Adabt.Storage.Tlv

/-! # Reading back a written value

The reader undoes the writer on every ordered value nested no deeper than the
limit, provided its bytes fit in memory, whatever follows them. -/

set_option autoImplicit false

namespace Adabt.Storage
open Adabt.Core Adabt.Library

theorem msb_eq_last (b : BitVec 64) {i : ℕ} (hi : i < 64) (h : ¬ i + 1 < 64) :
    b[i] = b.msb := by
  rw [BitVec.msb_eq_getLsbD_last, ← BitVec.getLsbD_eq_getElem, show i = 64 - 1 by omega]

theorem sign_mask (b : BitVec 64) :
    b.sshiftRight 63 = if b.msb then BitVec.allOnes 64 else 0#64 := by
  apply BitVec.eq_of_getLsbD_eq
  intro i hi
  by_cases h0 : 63 + i < 64
  · obtain rfl : i = 0 := by omega
    cases hm : b.msb <;> simp [-BitVec.reduceAllOnes, BitVec.getElem_sshiftRight, msb_eq_last, hm]
  · cases hm : b.msb <;> simp [-BitVec.reduceAllOnes, BitVec.getElem_sshiftRight, hi, h0, hm]

theorem unzigzag_bits (b : BitVec 64) :
    (((b <<< 1) ^^^ (b.sshiftRight 63)) >>> 1) ^^^
      -(((b <<< 1) ^^^ (b.sshiftRight 63)) &&& 1#64) = b := by
  have hlow : ((b <<< 1) ^^^ (b.sshiftRight 63)) &&& 1#64 = if b.msb then 1#64 else 0#64 := by
    rw [sign_mask]
    apply BitVec.eq_of_getLsbD_eq
    intro i hi
    cases hm : b.msb <;> by_cases h0 : i = 0 <;> simp [BitVec.getLsbD_one, h0]
  have hneg : -(if b.msb then 1#64 else 0#64) = if b.msb then BitVec.allOnes 64 else 0#64 := by
    cases b.msb <;> decide
  rw [hlow, hneg, sign_mask]
  apply BitVec.eq_of_getLsbD_eq
  intro i hi
  simp only [BitVec.getLsbD_xor, BitVec.getLsbD_ushiftRight, BitVec.getLsbD_shiftLeft]
  cases hm : b.msb <;> by_cases h : i + 1 < 64 <;>
    simp [-BitVec.reduceAllOnes, hi, h, msb_eq_last, hm, Nat.add_comm 1 i]

theorem unzigzag_zigzag (v : Int64) : unzigzag (zigzag v) = v := by
  apply Int64.toBitVec_inj.mp
  simpa [unzigzag, zigzag] using unzigzag_bits v.toBitVec

def lenBound (n : ℕ) : ℕ := Varint.encodedLen (UInt64.ofNat n)

def strLen (s : String) : ℕ := lenBound s.utf8ByteSize + s.utf8ByteSize

mutual

/-- Bytes taken by a value, computed without writing it. -/
def tlvLen : Value → ℕ
  | .null | .bool _ => 1
  | .decimal _ _ => 18
  | .timestamp _ | .f64 _ => 9
  | .i64 n => 1 + Varint.encodedLen (zigzag n)
  | .u64 n => 1 + Varint.encodedLen n
  | .str s => 1 + strLen s
  | .bytes b => 1 + (lenBound b.length + b.length)
  | .list items => 1 + (lenBound items.length + itemsLen items)
  | .map m => 1 + (lenBound m.length + entriesLen m)

def itemsLen : List Value → ℕ
  | [] => 0
  | v :: vs => tlvLen v + itemsLen vs

def entriesLen : List (String × Value) → ℕ
  | [] => 0
  | (k, v) :: es => strLen k + tlvLen v + entriesLen es

end

theorem writeLen_length (n : ℕ) : (writeLen n).length = lenBound n :=
  Varint.writeU64_length _

theorem writeStr_length (s : String) : (writeStr s).length = strLen s := by
  have := writeLen_length s.utf8ByteSize
  simp only [writeStr, strLen, List.length_append, utf8_length]
  omega

mutual

theorem writeTlv_length : (v : Value) → (writeTlv v).length = tlvLen v
  | .null => by simp [writeTlv, tlvLen]
  | .bool b => by cases b <;> simp [writeTlv, tlvLen]
  | .decimal _ _ | .timestamp _ | .f64 _ => by simp [writeTlv, tlvLen]
  | .i64 n => by
    have := Varint.writeU64_length (zigzag n)
    simp only [writeTlv, tlvLen, List.length_cons]
    omega
  | .u64 n => by
    have := Varint.writeU64_length n
    simp only [writeTlv, tlvLen, List.length_cons]
    omega
  | .str s => by
    have := writeStr_length s
    simp only [writeTlv, tlvLen, List.length_cons]
    omega
  | .bytes b => by
    have := writeLen_length b.length
    simp only [writeTlv, tlvLen, List.length_cons, List.length_append]
    omega
  | .list items => by
    have := writeLen_length items.length
    have := writeItems_length items
    simp only [writeTlv, tlvLen, List.length_cons, List.length_append]
    omega
  | .map m => by
    have := writeLen_length m.length
    have := writeEntries_length m
    simp only [writeTlv, tlvLen, List.length_cons, List.length_append]
    omega

theorem writeItems_length : (vs : List Value) → (writeItems vs).length = itemsLen vs
  | [] => by simp [writeItems, itemsLen]
  | v :: vs => by
    have := writeTlv_length v
    have := writeItems_length vs
    simp only [writeItems, itemsLen, List.length_append]
    omega

theorem writeEntries_length :
    (es : List (String × Value)) → (writeEntries es).length = entriesLen es
  | [] => by simp [writeEntries, entriesLen]
  | (k, v) :: es => by
    have := writeStr_length k
    have := writeTlv_length v
    have := writeEntries_length es
    simp only [writeEntries, entriesLen, List.length_append]
    omega

end

theorem writeTlv_length_pos (v : Value) : 0 < (writeTlv v).length := by
  cases v with
  | bool b => cases b <;> simp [writeTlv]
  | _ => simp [writeTlv]

theorem length_le_writeItems (vs : List Value) : vs.length ≤ (writeItems vs).length := by
  induction vs with
  | nil => simp
  | cons v vs ih =>
    have := writeTlv_length_pos v
    simp only [writeItems, List.length_append, List.length_cons]
    omega

theorem length_le_writeEntries (es : List (String × Value)) :
    es.length ≤ (writeEntries es).length := by
  induction es with
  | nil => simp
  | cons e es ih =>
    have := writeTlv_length_pos e.2
    simp only [writeEntries, List.length_append, List.length_cons]
    omega

theorem toNat_ofNat_len {n : ℕ} (h : n < 2 ^ 64) : (UInt64.ofNat n).toNat = n :=
  UInt64.toNat_ofNat_of_lt' h

theorem varint_writeLen (p n : ℕ) (ys : Bytes) :
    Cursor.varint ⟨p, writeLen n ++ ys⟩ =
      .ok (UInt64.ofNat n, ⟨p + (writeLen n).length, ys⟩) :=
  Cursor.varint_append p _ ys

mutual

/-- The reader undoes the writer, whatever bytes follow. -/
theorem readTlvAt_writeTlv : (v : Value) → (hv : v.Ordered) → (left : ℕ) → v.nesting < left →
    (writeTlv v).length < 2 ^ 64 → (p : ℕ) → (rest : Bytes) →
    readTlvAt left ⟨p, writeTlv v ++ rest⟩ = .ok (⟨v, hv⟩, ⟨p + (writeTlv v).length, rest⟩)
  | v, _, 0, hd, _, _, _ => absurd hd (Nat.not_lt_zero _)
  | .null, _, left + 1, _, _, p, rest => by
    simp [writeTlv, readTlvAt, pure, Except.pure]
  | .bool b, _, left + 1, _, _, p, rest => by
    cases b <;> simp [writeTlv, readTlvAt, pure, Except.pure, Tag.null, Tag.decimal,
      Tag.timestamp, Tag.false, Tag.true]
  | .decimal units scale, _, left + 1, _, _, p, rest => by
    have hu : units.toNat < 256 ^ 16 := units.isLt
    simp +decide only [writeTlv, readTlvAt, List.cons_append, Cursor.u8_cons, ok_bind, reduceIte]
    rw [Cursor.take_append _ _ _ (leBytes_length 16 _)]
    simp [ofLeBytes_leBytes hu, pure, Except.pure]
  | .timestamp t, _, left + 1, _, _, p, rest => by
    simp +decide only [writeTlv, readTlvAt, List.cons_append, Cursor.u8_cons, ok_bind, reduceIte]
    rw [Cursor.u64_append]
    simp [pure, Except.pure]
  | .i64 n, _, left + 1, _, _, p, rest => by
    simp +decide only [writeTlv, readTlvAt, List.cons_append, Cursor.u8_cons, ok_bind, reduceIte]
    rw [Cursor.varint_append]
    simp [unzigzag_zigzag, pure, Except.pure]
    omega
  | .u64 n, _, left + 1, _, _, p, rest => by
    simp +decide only [writeTlv, readTlvAt, List.cons_append, Cursor.u8_cons, ok_bind, reduceIte]
    rw [Cursor.varint_append]
    simp [pure, Except.pure]
    omega
  | .f64 f, _, left + 1, _, _, p, rest => by
    simp +decide only [writeTlv, readTlvAt, List.cons_append, Cursor.u8_cons, ok_bind, reduceIte]
    rw [Cursor.u64_append]
    simp [pure, Except.pure]
  | .str s, _, left + 1, _, hlen, p, rest => by
    have hs : s.utf8ByteSize < 2 ^ 64 := by
      simp only [writeTlv, writeStr, List.length_cons, List.length_append, utf8_length] at hlen
      omega
    simp +decide only [writeTlv, writeStr, readTlvAt, List.cons_append, List.append_assoc,
      Cursor.u8_cons, ok_bind, reduceIte]
    rw [varint_writeLen]
    simp only [ok_bind, toNat_ofNat_len hs, Cursor.string_append]
    simp [pure, Except.pure]
    omega
  | .bytes b, _, left + 1, _, hlen, p, rest => by
    have hb : b.length < 2 ^ 64 := by
      simp only [writeTlv, List.length_cons, List.length_append] at hlen
      omega
    simp +decide only [writeTlv, readTlvAt, List.cons_append, List.append_assoc, Cursor.u8_cons,
      ok_bind, reduceIte]
    rw [varint_writeLen]
    simp only [ok_bind, toNat_ofNat_len hb, Cursor.take_append _ b rest rfl]
    simp [pure, Except.pure]
    omega
  | .list items, hv, left + 1, hd, hlen, p, rest => by
    simp only [writeTlv, List.length_cons, List.length_append] at hlen
    have hcount := length_le_writeItems items
    obtain ⟨ovs, hovs, hread⟩ := readItems_writeItems items hv left (by
      rw [Value.nesting] at hd; omega) (by omega) (p + 1 + (writeLen items.length).length) rest
    simp +decide only [writeTlv, readTlvAt, List.cons_append, List.append_assoc, Cursor.u8_cons,
      ok_bind, reduceIte]
    rw [varint_writeLen]
    have hroom : items.length ≤ (writeItems items ++ rest).length := by
      rw [List.length_append]; omega
    simp only [ok_bind, toNat_ofNat_len (show items.length < 2 ^ 64 by omega), Cursor.remaining,
      ensure, if_pos hroom, hread]
    simp [pure, Except.pure, ordList, hovs]
    omega
  | .map m, hv, left + 1, hd, hlen, p, rest => by
    simp only [writeTlv, List.length_cons, List.length_append] at hlen
    have hcount := length_le_writeEntries m
    obtain ⟨oes, hoes, hread⟩ := readEntries_writeEntries m hv.2 left (by
      rw [Value.nesting] at hd; omega) (by omega) (p + 1 + (writeLen m.length).length) rest ∅
    simp +decide only [writeTlv, readTlvAt, List.cons_append, List.append_assoc, Cursor.u8_cons,
      ok_bind, reduceIte]
    rw [varint_writeLen]
    have hroom : m.length ≤ (writeEntries m ++ rest).length := by
      rw [List.length_append]; omega
    have hsorted : oes.Pairwise (fun a b => a.1 < b.1) := by
      have hm := hv.1
      rw [← hoes, List.pairwise_map] at hm
      exact hm
    have hmap : rawEntries ((∅ : OrdMap String OrdValue).insertAll oes) = m := by
      rw [OrdMap.insertAll_entries ⟨oes, hsorted⟩]
      exact hoes
    simp only [ok_bind, toNat_ofNat_len (show m.length < 2 ^ 64 by omega), Cursor.remaining,
      ensure, if_pos hroom, hread]
    simp [pure, Except.pure, ordMap, hmap]
    omega

theorem readItems_writeItems : (vs : List Value) → Value.OrderedItems vs → (left : ℕ) →
    Value.nestingItems vs ≤ left → (writeItems vs).length < 2 ^ 64 → (p : ℕ) → (rest : Bytes) →
    ∃ ovs : List OrdValue, ovs.map Subtype.val = vs ∧
      readItems (readTlvAt left) vs.length ⟨p, writeItems vs ++ rest⟩ =
        .ok (ovs, ⟨p + (writeItems vs).length, rest⟩)
  | [], _, _, _, _, p, rest => ⟨[], rfl, rfl⟩
  | v :: vs, hv, left, hd, hlen, p, rest => by
    rw [Value.nestingItems] at hd
    simp only [writeItems, List.length_append] at hlen
    have hhead := readTlvAt_writeTlv v hv.1 left (by omega) (by omega) p (writeItems vs ++ rest)
    obtain ⟨ovs, hovs, htail⟩ := readItems_writeItems vs hv.2 left (by omega) (by omega)
      (p + (writeTlv v).length) rest
    refine ⟨⟨v, hv.1⟩ :: ovs, by rw [List.map_cons, hovs], ?_⟩
    simp only [writeItems, List.length_cons, readItems, List.append_assoc, hhead, ok_bind, htail]
    simp [pure, Except.pure]
    omega

theorem readEntries_writeEntries : (es : List (String × Value)) → Value.OrderedEntries es →
    (left : ℕ) → Value.nestingEntries es ≤ left → (writeEntries es).length < 2 ^ 64 →
    (p : ℕ) → (rest : Bytes) → (m : OrdMap String OrdValue) →
    ∃ oes : List (String × OrdValue), (oes.map fun e => (e.1, e.2.1)) = es ∧
      readEntries (readTlvAt left) es.length m ⟨p, writeEntries es ++ rest⟩ =
        .ok (m.insertAll oes, ⟨p + (writeEntries es).length, rest⟩)
  | [], _, _, _, _, p, rest, m => ⟨[], rfl, rfl⟩
  | (k, v) :: es, hv, left, hd, hlen, p, rest, m => by
    rw [Value.nestingEntries] at hd
    simp only [writeEntries, writeStr, List.length_append, utf8_length] at hlen
    have hhead := readTlvAt_writeTlv v hv.1 left (by omega) (by omega)
      (p + (writeLen k.utf8ByteSize).length + k.utf8ByteSize) (writeEntries es ++ rest)
    obtain ⟨oes, hoes, htail⟩ := readEntries_writeEntries es hv.2 left (by omega) (by omega)
      (p + (writeLen k.utf8ByteSize).length + k.utf8ByteSize + (writeTlv v).length) rest
      (m.insert k ⟨v, hv.1⟩)
    refine ⟨(k, ⟨v, hv.1⟩) :: oes, by rw [List.map_cons, hoes], ?_⟩
    simp only [writeEntries, writeStr, List.length_cons, readEntries, List.append_assoc,
      varint_writeLen, ok_bind, toNat_ofNat_len (show k.utf8ByteSize < 2 ^ 64 by omega),
      Cursor.string_append, hhead, htail]
    simp
    omega

end

/-- Two encodings with something behind them are one only if all of it is. -/
theorem writeTlv_cancel {v w : Value} (hv : v.Ordered) (hw : w.Ordered)
    (hlen : (writeTlv v).length < 2 ^ 64) (hlen' : (writeTlv w).length < 2 ^ 64) {r r' : Bytes}
    (h : writeTlv v ++ r = writeTlv w ++ r') : v = w ∧ r = r' := by
  have hread := readTlvAt_writeTlv v hv (v.nesting + w.nesting + 1) (by omega) hlen 0 r
  rw [h, readTlvAt_writeTlv w hw _ (by omega) hlen' 0 r'] at hread
  simp only [Except.ok.injEq, Prod.mk.injEq, Subtype.mk.injEq, Cursor.mk.injEq] at hread
  exact ⟨hread.1.symm, hread.2.2.symm⟩

/-- At the top level every value nested at most `maxDepth` deep reads back. -/
theorem readTlvValue_writeTlv (v : OrdValue) (hd : v.1.nesting ≤ maxDepth)
    (hlen : (writeTlv v.1).length < 2 ^ 64) (p : ℕ) (rest : Bytes) :
    readTlvValue 0 ⟨p, writeTlv v.1 ++ rest⟩ = .ok (v, ⟨p + (writeTlv v.1).length, rest⟩) :=
  readTlvAt_writeTlv v.1 v.2 _ (by omega) hlen p rest

end Adabt.Storage

/-! ## Values nested too deep

The writer recurses as deep as its value goes. The reader stops at its limit,
so a value nested deeper is written and then refused, and the error names the
limit and nothing else. -/

namespace Adabt.Storage
open Adabt.Core Adabt.Library

def tooDeep : Error := .corruption ("record nesting deeper than " ++ toString maxDepth)

mutual

/-- The reader gives up at the first value beyond its limit. -/
theorem readTlvAt_deep : (v : Value) → (hv : v.Ordered) → (left : ℕ) → left ≤ v.nesting →
    (writeTlv v).length < 2 ^ 64 → (p : ℕ) → (rest : Bytes) →
    readTlvAt left ⟨p, writeTlv v ++ rest⟩ = .error tooDeep
  | _, _, 0, _, _, _, _ => rfl
  | .null, _, _ + 1, hd, _, _, _ | .bool _, _, _ + 1, hd, _, _, _ | .i64 _, _, _ + 1, hd, _, _, _
  | .u64 _, _, _ + 1, hd, _, _, _ | .f64 _, _, _ + 1, hd, _, _, _
  | .decimal _ _, _, _ + 1, hd, _, _, _ | .timestamp _, _, _ + 1, hd, _, _, _
  | .str _, _, _ + 1, hd, _, _, _ | .bytes _, _, _ + 1, hd, _, _, _ => by
    simp [Value.nesting] at hd
  | .list items, hv, left + 1, hd, hlen, p, rest => by
    simp only [writeTlv, List.length_cons, List.length_append] at hlen
    have hcount := length_le_writeItems items
    have hread := readItems_deep items hv left (by rwa [Value.nesting] at hd) (by omega)
      (p + 1 + (writeLen items.length).length) rest
    simp +decide only [writeTlv, readTlvAt, List.cons_append, List.append_assoc, Cursor.u8_cons,
      ok_bind, reduceIte]
    rw [varint_writeLen]
    have hroom : items.length ≤ (writeItems items ++ rest).length := by
      rw [List.length_append]; omega
    simp only [ok_bind, toNat_ofNat_len (show items.length < 2 ^ 64 by omega), Cursor.remaining,
      ensure, if_pos hroom, hread]
    rfl
  | .map m, hv, left + 1, hd, hlen, p, rest => by
    simp only [writeTlv, List.length_cons, List.length_append] at hlen
    have hcount := length_le_writeEntries m
    have hread := readEntries_deep m hv.2 left (by rwa [Value.nesting] at hd) (by omega)
      (p + 1 + (writeLen m.length).length) rest ∅
    simp +decide only [writeTlv, readTlvAt, List.cons_append, List.append_assoc, Cursor.u8_cons,
      ok_bind, reduceIte]
    rw [varint_writeLen]
    have hroom : m.length ≤ (writeEntries m ++ rest).length := by
      rw [List.length_append]; omega
    simp only [ok_bind, toNat_ofNat_len (show m.length < 2 ^ 64 by omega), Cursor.remaining,
      ensure, if_pos hroom, hread]
    rfl

theorem readItems_deep : (vs : List Value) → Value.OrderedItems vs → (left : ℕ) →
    left < Value.nestingItems vs → (writeItems vs).length < 2 ^ 64 → (p : ℕ) → (rest : Bytes) →
    readItems (readTlvAt left) vs.length ⟨p, writeItems vs ++ rest⟩ = .error tooDeep
  | [], _, _, hd, _, _, _ => absurd hd (Nat.not_lt_zero _)
  | v :: vs, hv, left, hd, hlen, p, rest => by
    rw [Value.nestingItems] at hd
    simp only [writeItems, List.length_append] at hlen
    rw [writeItems, List.append_assoc, List.length_cons, readItems]
    by_cases hhead : left ≤ v.nesting
    · rw [readTlvAt_deep v hv.1 left hhead (by omega), error_bind]
    · rw [readTlvAt_writeTlv v hv.1 left (by omega) (by omega), ok_bind]
      dsimp only
      rw [readItems_deep vs hv.2 left (by omega) (by omega), error_bind]

theorem readEntries_deep : (es : List (String × Value)) → Value.OrderedEntries es → (left : ℕ) →
    left < Value.nestingEntries es → (writeEntries es).length < 2 ^ 64 → (p : ℕ) →
    (rest : Bytes) → (m : OrdMap String OrdValue) →
    readEntries (readTlvAt left) es.length m ⟨p, writeEntries es ++ rest⟩ = .error tooDeep
  | [], _, _, hd, _, _, _, _ => absurd hd (Nat.not_lt_zero _)
  | (k, v) :: es, hv, left, hd, hlen, p, rest, m => by
    rw [Value.nestingEntries] at hd
    simp only [writeEntries, writeStr, List.length_append, utf8_length] at hlen
    simp only [writeEntries, writeStr, List.length_cons, readEntries, List.append_assoc,
      varint_writeLen, ok_bind, toNat_ofNat_len (show k.utf8ByteSize < 2 ^ 64 by omega),
      Cursor.string_append]
    by_cases hhead : left ≤ v.nesting
    · rw [readTlvAt_deep v hv.1 left hhead (by omega), error_bind]
    · rw [readTlvAt_writeTlv v hv.1 left (by omega) (by omega), ok_bind]
      dsimp only
      rw [readEntries_deep es hv.2 left (by omega) (by omega)]

end

theorem readTlvValue_deep (v : OrdValue) (hd : maxDepth < v.1.nesting)
    (hlen : (writeTlv v.1).length < 2 ^ 64) (p : ℕ) (rest : Bytes) :
    readTlvValue 0 ⟨p, writeTlv v.1 ++ rest⟩ = .error tooDeep :=
  readTlvAt_deep v.1 v.2 _ hd hlen p rest

end Adabt.Storage
