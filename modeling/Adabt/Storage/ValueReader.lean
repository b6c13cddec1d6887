import Adabt.Storage.Buffer
import Adabt.Storage.ValueCodec

/-! # Values, read by position

The value reader as the code has it: a position in a buffer, slices that end the
program where there is nothing to slice, and a stack of so many frames. It answers
as the reader from the front does, so no buffer makes it panic or outgrow the stack,
and its answer rests on the bytes it took alone. -/

set_option autoImplicit false

namespace Adabt.Storage
open Adabt.Core Adabt.Library

/-! ## The cursor -/

namespace Cursor.Checked

def refuse (n pos left : ℕ) : String :=
  if 2 ^ 64 ≤ pos + n then "length overflow while decoding record"
  else "record truncated: wanted " ++ toString n ++ " bytes at " ++ toString pos ++ ", " ++
    toString left ++ " available"

def take (n : ℕ) : BufferReader Bytes := BufferReader.take (refuse n) n

def u8 : BufferReader UInt8 := BufferReader.u8 (refuse 1)

def u64 : BufferReader UInt64 := do
  let n ← BufferReader.number (refuse 8) 8
  return UInt64.ofNat n

def varint : BufferReader UInt64 := BufferReader.varint

def text (b : Bytes) : Except Fault String :=
  match decodeUtf8 b with
  | some s => .ok s
  | none => .error (.error (.corruption "invalid utf-8 in record"))

def string (n : ℕ) : BufferReader String := do
  let b ← take n
  Reading.checked (text b)

end Cursor.Checked

/-! ## The reader -/

namespace Checked
open Cursor.Checked

def readEntries (read : BufferReader OrdValue) :
    ℕ → OrdMap String OrdValue → BufferReader (OrdMap String OrdValue)
  | 0, m => return m
  | n + 1, m => do
    let klen ← varint
    let k ← string klen.toNat
    let v ← read
    readEntries read n (m.insert k v)

def tooMany (what things : String) (n left : ℕ) : Fault :=
  .error (.corruption (what ++ " of " ++ toString n ++ " " ++ things ++ " exceeds " ++
    toString left ++ " remaining bytes"))

theorem tooMany_corrupted (what things : String) (n left : ℕ) :
    Fault.Corrupted (tooMany what things n left) := Fault.corrupted _

/-- With so many frames left on the stack, read a value at this depth. -/
def readTlv : ℕ → ℕ → BufferReader OrdValue
  | 0, _ => throw (.panicked "stack overflow")
  | frames + 1, depth =>
    if maxDepth < depth then throw (.error tooDeep)
    else do
      let t ← u8
      if t = Tag.null then return ⟨.null, trivial⟩
      else if t = Tag.decimal then do
        let scale ← u8
        let n ← BufferReader.number (refuse 16) 16
        return ⟨.decimal (BitVec.ofNat 128 n) scale, trivial⟩
      else if t = Tag.timestamp then do
        let n ← u64
        return ⟨.timestamp n.toInt64, trivial⟩
      else if t = Tag.false then return ⟨.bool false, trivial⟩
      else if t = Tag.true then return ⟨.bool true, trivial⟩
      else if t = Tag.i64 then do
        let n ← varint
        return ⟨.i64 (unzigzag n), trivial⟩
      else if t = Tag.u64 then do
        let n ← varint
        return ⟨.u64 n, trivial⟩
      else if t = Tag.f64 then do
        let n ← u64
        return ⟨.f64 ⟨n⟩, trivial⟩
      else if t = Tag.str then do
        let n ← varint
        let s ← string n.toNat
        return ⟨.str s, trivial⟩
      else if t = Tag.bytes then do
        let n ← varint
        let b ← take n.toNat
        return ⟨.bytes b, trivial⟩
      else if t = Tag.list then do
        let n ← varint
        Reading.ensureLeft n.toNat (tooMany "list" "items" n.toNat)
        let items ← (readTlv frames (depth + 1)).times n.toNat
        return ordList items
      else if t = Tag.map then do
        let n ← varint
        Reading.ensureLeft n.toNat (tooMany "map" "entries" n.toNat)
        let m ← readEntries (readTlv frames (depth + 1)) n.toNat ∅
        return ordMap m
      else throw (.error (.corruption ("unknown value tag " ++ toString t.toNat ++ " in record")))

/-- The frames that reading a value takes: one for each depth, and one to refuse the next. -/
def frames : ℕ := maxDepth + 2

def readTlvValue : BufferReader OrdValue := readTlv frames 0

/-- A value, and where the reader stands behind it. -/
def readMeasured : BufferReader (OrdValue × ℕ) := do
  let v ← readTlvValue
  let used ← Reading.position
  return (v, used)

def decodeValue (buf : Bytes) : Except Fault (OrdValue × ℕ) := readMeasured.runOn buf

end Checked

/-! ## Staying within the buffer -/

namespace Cursor.Checked
open Reading

theorem contained_take (n : ℕ) : Contained Fault.Corrupted n (take n) := BufferReader.contained_bytes

theorem contained_u8 : Contained Fault.Corrupted 1 u8 := BufferReader.contained_u8

theorem contained_u64 : Contained Fault.Corrupted 8 u64 :=
  BufferReader.contained_number.bind_first fun _ => contained_pure _

theorem contained_varint : Contained Fault.Corrupted 1 varint := BufferReader.contained_varint

theorem contained_text (b : Bytes) :
    Contained Fault.Corrupted 0 (checked (text b) : BufferReader String) := by
  unfold text
  cases decodeUtf8 b with
  | some s => exact contained_pure s
  | none => exact contained_throw (Fault.corrupted _) 0

theorem contained_string (n : ℕ) : Contained Fault.Corrupted n (string n) :=
  (contained_take n).bind_first contained_text

end Cursor.Checked

namespace Checked
open Cursor.Checked Reading

variable {read : BufferReader OrdValue}

theorem contained_readEntries (hread : Contained Fault.Corrupted 1 read) (n : ℕ)
    (m : OrdMap String OrdValue) : Contained Fault.Corrupted n (readEntries read n m) := by
  induction n generalizing m with
  | zero => exact contained_pure m
  | succ n ih =>
    have hentry (klen : UInt64) : Contained Fault.Corrupted n (do
        let k ← string klen.toNat
        let v ← read
        readEntries read n (m.insert k v)) :=
      ((contained_string klen.toNat).bind fun k => hread.bind fun v => ih (m.insert k v)).le (by omega)
    exact (contained_varint.bind hentry).le (by omega)

/-- The stack is never used up: a value one level too deep is refused on the last frame. -/
theorem contained_readTlv (frames depth : ℕ) (hframes : maxDepth + 2 ≤ frames + depth)
    (hdepth : depth ≤ maxDepth + 1) : Contained Fault.Corrupted 1 (readTlv frames depth) := by
  induction frames generalizing depth with
  | zero => omega
  | succ frames ih =>
    by_cases hdeep : maxDepth < depth
    · rw [readTlv, if_pos hdeep]
      exact contained_throw (Fault.corrupted _) 1
    rw [readTlv, if_neg hdeep]
    have hread := ih (depth + 1) (by omega) (by omega)
    refine contained_u8.bind_first fun t => ?_
    refine .ite (contained_pure _) ?_
    refine .ite (contained_u8.seq fun scale => BufferReader.contained_number.seq fun n =>
      contained_pure _) ?_
    refine .ite (contained_u64.seq fun n => contained_pure _) ?_
    refine .ite (contained_pure _) (.ite (contained_pure _) ?_)
    refine .ite (contained_varint.seq fun n => contained_pure _) ?_
    refine .ite (contained_varint.seq fun n => contained_pure _) ?_
    refine .ite (contained_u64.seq fun n => contained_pure _) ?_
    refine .ite (contained_varint.seq fun n => (contained_string n.toNat).seq fun s =>
      contained_pure _) ?_
    refine .ite (contained_varint.seq fun n => (contained_take n.toNat).seq fun b =>
      contained_pure _) ?_
    refine .ite (contained_varint.seq fun n => Contained.le (Contained.ensureLeft
      (tooMany_corrupted _ _ _) ((hread.times n.toNat).bind_first fun items => contained_pure _)
      (Nat.le_refl _)) (Nat.zero_le _)) ?_
    refine .ite (contained_varint.seq fun n => Contained.le (Contained.ensureLeft
      (tooMany_corrupted _ _ _) ((contained_readEntries hread n.toNat ∅).bind_first fun m =>
        contained_pure _) (Nat.le_refl _)) (Nat.zero_le _)) ?_
    exact contained_throw (Fault.corrupted _) 0

theorem contained_readTlvValue : Contained Fault.Corrupted 1 readTlvValue :=
  contained_readTlv frames 0 (Nat.le_refl _) (by decide)

end Checked

/-! ## The reader from the front -/

/-- What is left from a position on. -/
def Cursor.at (buf : Bytes) (pos : ℕ) : Cursor := ⟨pos, buf.drop pos⟩

theorem Cursor.at_remaining (buf : Bytes) (pos : ℕ) :
    (Cursor.at buf pos).remaining = buf.length - pos := List.length_drop

abbrev MirrorsCursor {α : Type} (old : Reader α) (x : BufferReader α) : Prop :=
  Reading.Mirrors Cursor.at Fault.error old x

namespace Cursor.Checked
open Reading

theorem mirrors_take (n : ℕ) : MirrorsCursor (Cursor.take n) (take n) where
  ok := fun buf pos hpos b c h => by
    rw [Cursor.take, Cursor.at, List.length_drop] at h
    split_ifs at h with hn
    cases h
    refine ⟨pos + n, BufferReader.take_ok (by omega), by omega, ?_⟩
    rw [List.drop_drop, Cursor.at]
  error := fun buf pos hpos e h => by
    refine ⟨pos, ?_⟩
    rw [Cursor.take, Cursor.at, List.length_drop] at h
    have hshort : ¬pos + n ≤ buf.length := by
      split_ifs at h <;> omega
    rw [take, BufferReader.take_error hshort, refuse]
    rw [if_neg (by omega)] at h
    split_ifs at h ⊢ <;> cases h <;> rfl

theorem length_of_take {n : ℕ} {c c' : Cursor} {b : Bytes} (h : Cursor.take n c = .ok (b, c')) :
    b.length = n := by
  rw [Cursor.take] at h
  split_ifs at h with hn
  cases h
  rw [List.length_take, Nat.min_eq_left hn]

theorem mirrors_u8 : MirrorsCursor Cursor.u8 u8 := by
  refine (mirrors_take 1).bind_of (fun _ _ _ => length_of_take) fun b hb => ?_
  obtain ⟨x, rfl⟩ := List.length_eq_one_iff.mp hb
  exact mirrors_pure x

theorem mirrors_number {α : Type} (n : ℕ) (g : ℕ → α) :
    MirrorsCursor (fun c => Cursor.take n c >>= fun r => .ok (g (ofLeBytes r.1), r.2))
      (BufferReader.number (refuse n) n >>= fun m => pure (g m)) := by
  rw [BufferReader.number, bind_assoc]
  refine (mirrors_take n).bind_of (fun _ _ _ => length_of_take) fun b hb => ?_
  rw [Slice.exactly_ok hb]
  exact mirrors_pure (g (ofLeBytes b))

theorem mirrors_u64 : MirrorsCursor Cursor.u64 u64 := mirrors_number 8 UInt64.ofNat

theorem mirrors_varint : MirrorsCursor Cursor.varint varint where
  ok := fun buf pos hpos v c h => by
    obtain ⟨⟨n, used⟩, hread, h⟩ := bind_eq_ok.mp h
    cases h
    have hused := Varint.readU64_used hread
    rw [Cursor.at, List.length_drop] at hused
    refine ⟨pos + used, BufferReader.varint_ok hpos hread, by omega, ?_⟩
    rw [Cursor.at, Cursor.at, List.drop_drop]
  error := fun buf pos hpos e h => by
    cases hread : Varint.readU64 (buf.drop pos) with
    | error e' =>
      rw [Cursor.varint, Cursor.at, hread] at h
      cases h
      exact ⟨pos, BufferReader.varint_error hpos hread⟩
    | ok r =>
      rw [Cursor.varint, Cursor.at, hread] at h
      cases h

theorem mirrors_string (n : ℕ) : MirrorsCursor (Cursor.string n) (string n) := by
  refine (mirrors_take n).bind fun b => ?_
  unfold text
  dsimp only
  cases decodeUtf8 b with
  | some s => exact mirrors_pure s
  | none => exact mirrors_throw (Error.corruption "invalid utf-8 in record")

end Cursor.Checked

namespace Checked
open Cursor.Checked Reading

theorem mirrors_items {old : Reader OrdValue} {read : BufferReader OrdValue}
    (hread : MirrorsCursor old read) (n : ℕ) :
    MirrorsCursor (readItems old n) (read.times n) := by
  induction n with
  | zero => exact mirrors_pure []
  | succ n ih => exact hread.bind fun v => ih.bind fun vs => mirrors_pure (v :: vs)

theorem mirrors_entries {old : Reader OrdValue} {read : BufferReader OrdValue}
    (hread : MirrorsCursor old read) (n : ℕ) (m : OrdMap String OrdValue) :
    MirrorsCursor (Storage.readEntries old n m) (readEntries read n m) := by
  induction n generalizing m with
  | zero => exact mirrors_pure m
  | succ n ih =>
    exact mirrors_varint.bind fun klen => (mirrors_string klen.toNat).bind fun k =>
      hread.bind fun v => ih (m.insert k v)

theorem mirrors_readTlv (frames depth : ℕ) (hframes : maxDepth + 2 ≤ frames + depth)
    (hdepth : depth ≤ maxDepth + 1) :
    MirrorsCursor (readTlvAt (maxDepth + 1 - depth)) (readTlv frames depth) := by
  induction frames generalizing depth with
  | zero => omega
  | succ frames ih =>
    by_cases hdeep : maxDepth < depth
    · rw [readTlv, if_pos hdeep, show maxDepth + 1 - depth = 0 by omega]
      exact mirrors_throw tooDeep
    rw [readTlv, if_neg hdeep, show maxDepth + 1 - depth = maxDepth - depth + 1 by omega]
    have hread := ih (depth + 1) (by omega) (by omega)
    rw [show maxDepth + 1 - (depth + 1) = maxDepth - depth by omega] at hread
    refine mirrors_u8.bind fun t => ?_
    refine .ite (mirrors_pure _) ?_
    refine .ite (mirrors_u8.bind fun scale => mirrors_number 16 fun n =>
      (⟨.decimal (BitVec.ofNat 128 n) scale, trivial⟩ : OrdValue)) ?_
    refine .ite (mirrors_u64.bind fun n => mirrors_pure _) ?_
    refine .ite (mirrors_pure _) (.ite (mirrors_pure _) ?_)
    refine .ite (mirrors_varint.bind fun n => mirrors_pure _) ?_
    refine .ite (mirrors_varint.bind fun n => mirrors_pure _) ?_
    refine .ite (mirrors_u64.bind fun n => mirrors_pure _) ?_
    refine .ite (mirrors_varint.bind fun n => (mirrors_string n.toNat).bind fun s =>
      mirrors_pure _) ?_
    refine .ite (mirrors_varint.bind fun n => (mirrors_take n.toNat).bind fun b =>
      mirrors_pure _) ?_
    refine .ite (mirrors_varint.bind fun n => ?_) (.ite (mirrors_varint.bind fun n => ?_) ?_)
    · exact Mirrors.ensureLeft Cursor.at_remaining (fun buf pos => by
        rw [Storage.tooMany, Cursor.at_remaining, tooMany])
        ((mirrors_items hread n.toNat).bind fun items => mirrors_pure _)
    · exact Mirrors.ensureLeft Cursor.at_remaining (fun buf pos => by
        rw [Storage.tooMany, Cursor.at_remaining, tooMany])
        ((mirrors_entries hread n.toNat ∅).bind fun m => mirrors_pure _)
    · exact mirrors_throw (Error.corruption _)

theorem mirrors_readTlvValue : MirrorsCursor (Storage.readTlvValue 0) readTlvValue :=
  mirrors_readTlv frames 0 (Nat.le_refl _) (by decide)

theorem mirrors_measured (v : OrdValue) :
    MirrorsCursor (fun c => .ok ((v, c.pos), c)) (position >>= fun used => pure (v, used)) where
  ok := fun _ pos hpos _ _ h => by
    cases h
    exact ⟨pos, rfl, hpos, rfl⟩
  error := fun _ _ _ _ h => by cases h

/-- No buffer makes the value reader panic: it is the reader from the front. -/
theorem decodeValue_eq (buf : Bytes) :
    decodeValue buf = (Storage.decodeValue buf).mapError Fault.error := by
  have hmirrors : MirrorsCursor
      (fun c => Storage.readTlvValue 0 c >>= fun r => .ok ((r.1, r.2.pos), r.2)) readMeasured :=
    mirrors_readTlvValue.bind mirrors_measured
  have hrun := hmirrors.runOn buf
  change decodeValue buf = Except.mapError Fault.error (Except.map Prod.fst
    (Storage.readTlvValue 0 (.new buf) >>= fun r => .ok ((r.1, r.2.pos), r.2))) at hrun
  rw [hrun, Storage.decodeValue]
  cases Storage.readTlvValue 0 (.new buf) with
  | ok r => rfl
  | error e => rfl

theorem decodeValue_stop {buf : Bytes} {v : OrdValue} {used : ℕ}
    (h : Storage.decodeValue buf = .ok (v, used)) : readTlvValue buf 0 = .ok v used := by
  have hchecked : decodeValue buf = .ok (v, used) := by
    rw [decodeValue_eq, h]
    rfl
  obtain ⟨stop, hstop⟩ := runOn_eq_ok hchecked
  cases hread : readTlvValue buf 0 with
  | error e mid =>
    rw [readMeasured, bind_error hread] at hstop
    cases hstop
  | ok w mid =>
    rw [readMeasured, bind_ok hread] at hstop
    cases hstop
    rfl

/-- The bytes a value took are all it rests on. -/
theorem decodeValue_settled {buf : Bytes} {v : OrdValue} {used : ℕ}
    (h : Storage.decodeValue buf = .ok (v, used)) {other : Bytes} (hlen : used ≤ other.length)
    (htake : other.take used = buf.take used) : Storage.decodeValue other = .ok (v, used) := by
  obtain ⟨-, -, hsettled⟩ := (contained_readTlvValue buf 0 (Nat.zero_le _)).of_ok (decodeValue_stop h)
  have hother := hsettled other hlen htake
  have hchecked : decodeValue other = .ok (v, used) := by
    apply runOn_ok
    rw [readMeasured, bind_ok hother]
    rfl
  rw [decodeValue_eq] at hchecked
  cases hold : Storage.decodeValue other with
  | ok r =>
    rw [hold] at hchecked
    cases hchecked
    rfl
  | error e =>
    rw [hold] at hchecked
    cases hchecked

end Checked

end Adabt.Storage
