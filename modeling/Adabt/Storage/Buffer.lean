import Adabt.Core.Error
import Adabt.Library.Bytes
import Adabt.Library.Reading
import Adabt.Storage.Varint

/-! # Buffers, read by position

What the bounds-checked readers of the store share: a position in a buffer, a check
before every slice, and slices that end the program where there is nothing to slice.
They differ in what they say when it runs out. -/

set_option autoImplicit false

/-! ## Indexing and slicing

What the language does where bytes are indexed, sliced or copied into: a range that
is not there ends the program, and so does a difference below zero. -/

namespace Adabt.Core

/-- The call returned, with what it says of bytes it cannot read. -/
def Fault.Corrupted (f : Fault) : Prop := ∃ message, f = .error (.corruption message)

theorem Fault.corrupted (message : String) : Fault.Corrupted (.error (.corruption message)) :=
  ⟨message, rfl⟩

/-- A difference of `usize`s. -/
def minus (a b : ℕ) : Except Fault ℕ :=
  if b ≤ a then .ok (a - b) else .error (.panicked "attempt to subtract with overflow")

theorem minus_ok {a b : ℕ} (h : b ≤ a) : minus a b = .ok (a - b) := if_pos h

end Adabt.Core

namespace Adabt.Core.Slice
open Adabt.Library

/-- `b[i]`. -/
def index (b : Bytes) (i : ℕ) : Except Fault UInt8 :=
  match b[i]? with
  | some x => .ok x
  | none => .error (.panicked ("index out of bounds: the len is " ++ toString b.length ++
      " but the index is " ++ toString i))

/-- `b[start..stop]`. -/
def range (b : Bytes) (start stop : ℕ) : Except Fault Bytes :=
  if stop < start then
    .error (.panicked ("slice index starts at " ++ toString start ++ " but ends at " ++ toString stop))
  else if b.length < stop then
    .error (.panicked ("range end index " ++ toString stop ++ " out of range for slice of length " ++
      toString b.length))
  else .ok (slice b start (stop - start))

/-- `b[start..]`. -/
def rangeFrom (b : Bytes) (start : ℕ) : Except Fault Bytes :=
  if b.length < start then
    .error (.panicked ("range start index " ++ toString start ++ " out of range for slice of length " ++
      toString b.length))
  else .ok (b.drop start)

/-- `a.copy_from_slice(b)` into an array of `n` bytes. -/
def exactly (n : ℕ) (b : Bytes) : Except Fault Bytes :=
  if b.length = n then .ok b
  else .error (.panicked "copy_from_slice: source slice length does not match destination slice length")

/-- `b[start..stop].copy_from_slice(xs)`. -/
def copy (b : Bytes) (start stop : ℕ) (xs : Bytes) : Except Fault Bytes := do
  let _ ← range b start stop
  let xs ← exactly (stop - start) xs
  return splice b start xs

variable {b xs : Bytes} {i start stop n : ℕ}

theorem index_ok (h : i < b.length) : index b i = .ok b[i] := by
  rw [index, List.getElem?_eq_getElem h]

theorem range_ok (h : start ≤ stop) (hb : stop ≤ b.length) :
    range b start stop = .ok (slice b start (stop - start)) := by
  rw [range, if_neg (by omega), if_neg (by omega)]

theorem rangeFrom_ok (h : start ≤ b.length) : rangeFrom b start = .ok (b.drop start) :=
  if_neg (by omega)

theorem exactly_ok (h : b.length = n) : exactly n b = .ok b := if_pos h

theorem copy_ok (h : start + xs.length = stop) (hb : stop ≤ b.length) :
    copy b start stop xs = .ok (splice b start xs) := by
  rw [copy, range_ok (by omega) hb, exactly_ok (by omega)]
  rfl

end Adabt.Core.Slice

/-! ## Buffers -/

namespace Adabt.Storage
open Adabt.Core Adabt.Library

abbrev BufferReader := Reading Fault UInt8

namespace BufferReader
open Reading

/-- `refuse` is given the position and what is left there. -/
def take (refuse : ℕ → ℕ → String) (n : ℕ) : BufferReader Bytes := fun buf pos =>
  -- `checked_add`: a sum past a `usize` is past the buffer as well.
  if pos + n ≤ buf.length then
    match Slice.range buf pos (pos + n) with
    | .ok s => .ok s (pos + n)
    | .error f => .error f pos
  else .error (.error (.corruption (refuse pos (buf.length - pos)))) pos

def u8 (refuse : ℕ → ℕ → String) : BufferReader UInt8 := do
  let b ← take refuse 1
  checked (Slice.index b 0)

/-- `take`, copied into an array of as many bytes and read as a number. -/
def number (refuse : ℕ → ℕ → String) (n : ℕ) : BufferReader ℕ := do
  let b ← take refuse n
  let a ← checked (Slice.exactly n b)
  return ofLeBytes a

def varint : BufferReader UInt64 := fun buf pos =>
  match Slice.rangeFrom buf pos with
  | .error f => .error f pos
  | .ok rest =>
    match Varint.readU64 rest with
    | .error e => .error (.error e) pos
    | .ok (v, used) => .ok v (pos + used)

/-! ## Staying within the buffer -/

variable {refuse : ℕ → ℕ → String} {n pos : ℕ} {buf : Bytes}

theorem take_ok (h : pos + n ≤ buf.length) :
    take refuse n buf pos = .ok (slice buf pos n) (pos + n) := by
  rw [take, if_pos h, Slice.range_ok (by omega) h, Nat.add_sub_cancel_left]

theorem take_error (h : ¬pos + n ≤ buf.length) :
    take refuse n buf pos = .error (.error (.corruption (refuse pos (buf.length - pos)))) pos := if_neg h

theorem slice_of_take {other : Bytes} {stop : ℕ} (h : pos + n ≤ stop)
    (htake : other.take stop = buf.take stop) : slice other pos n = slice buf pos n := by
  have := congrArg (fun l => (l.take (pos + n)).drop pos) htake
  simpa [slice, List.take_take, List.drop_take, Nat.min_eq_left h] using this

/-- What is taken has the length that was asked for, and the steps after it rely on that. -/
theorem contained_take {α : Type} {k : ℕ} {f : Bytes → BufferReader α}
    (hf : ∀ b, b.length = n → Contained Fault.Corrupted k (f b)) :
    Contained Fault.Corrupted (n + k) (take refuse n >>= f) := by
  intro buf pos hpos
  by_cases hn : pos + n ≤ buf.length
  · have hrest := hf _ (length_slice hn) buf (pos + n) hn
    unfold Post at hrest ⊢
    rw [bind_ok (take_ok hn)]
    refine Post.mono (x := f (slice buf pos n) buf) hrest (fun a stop hstop => ?_) fun _ _ he => he
    obtain ⟨hmove, hin, hsettled⟩ := hstop
    refine ⟨by omega, hin, fun other hother htake => ?_⟩
    rw [bind_ok (take_ok (by omega)), slice_of_take (by omega) htake]
    exact hsettled other hother htake
  · unfold Post
    rw [bind_error (take_error hn)]
    exact Fault.corrupted _

theorem contained_bytes : Contained Fault.Corrupted n (take refuse n) := by
  have h : Contained Fault.Corrupted (n + 0) (take refuse n >>= pure) :=
    contained_take fun b _ => contained_pure b
  rwa [bind_pure, Nat.add_zero] at h

theorem contained_u8 : Contained Fault.Corrupted 1 (u8 refuse) := by
  refine contained_take (k := 0) fun b hb => ?_
  rw [Slice.index_ok (by omega)]
  exact contained_pure _

theorem contained_number : Contained Fault.Corrupted n (number refuse n) := by
  refine contained_take (k := 0) fun b hb => ?_
  rw [Slice.exactly_ok hb]
  exact contained_pure _

theorem readLoop_corrupted {i shift result : ℕ} {buf : Bytes} {e : Error}
    (h : Varint.readLoop i shift result buf = .error e) : Fault.Corrupted (.error e) := by
  induction buf generalizing i shift result with
  | nil =>
    cases h
    exact Fault.corrupted _
  | cons byte rest ih =>
    rw [Varint.readLoop] at h
    dsimp only at h
    split_ifs at h
    · cases h
      exact Fault.corrupted _
    · cases h
      exact Fault.corrupted _
    · exact ih h

/-- A varint is read from the bytes it takes and from no others. -/
theorem readLoop_settled {i shift result used : ℕ} {buf : Bytes} {v : UInt64}
    (h : Varint.readLoop i shift result buf = .ok (v, used)) {other : Bytes}
    (hlen : used - i ≤ other.length) (htake : other.take (used - i) = buf.take (used - i)) :
    Varint.readLoop i shift result other = .ok (v, used) := by
  induction buf generalizing i shift result other with
  | nil => cases h
  | cons byte rest ih =>
    have hused := Varint.readLoop_used h
    obtain ⟨m, hm⟩ : ∃ m, used - i = m + 1 := ⟨used - i - 1, by omega⟩
    rw [hm] at hlen htake
    cases other with
    | nil => simp at hlen
    | cons byte' rest' =>
      rw [List.take_succ_cons, List.take_succ_cons, List.cons.injEq] at htake
      obtain ⟨rfl, htake⟩ := htake
      rw [Varint.readLoop] at h ⊢
      dsimp only at h ⊢
      split_ifs at h ⊢ with hlong hover hlast
      · exact h
      · refine ih h ?_ ?_
        · rw [List.length_cons] at hlen
          omega
        · rwa [show used - (i + 1) = m by omega]

theorem varint_ok {v : UInt64} {used : ℕ} (hpos : pos ≤ buf.length)
    (h : Varint.readU64 (buf.drop pos) = .ok (v, used)) :
    varint buf pos = .ok v (pos + used) := by
  rw [varint, Slice.rangeFrom_ok hpos]
  dsimp only
  rw [h]

theorem varint_error {e : Error} (hpos : pos ≤ buf.length)
    (h : Varint.readU64 (buf.drop pos) = .error e) : varint buf pos = .error (.error e) pos := by
  rw [varint, Slice.rangeFrom_ok hpos]
  dsimp only
  rw [h]

theorem contained_varint : Contained Fault.Corrupted 1 varint := by
  intro buf pos hpos
  unfold Post
  cases h : Varint.readU64 (buf.drop pos) with
  | error e =>
    rw [varint_error hpos h]
    exact readLoop_corrupted h
  | ok r =>
    obtain ⟨v, used⟩ := r
    have hused := Varint.readU64_used h
    rw [List.length_drop] at hused
    rw [varint_ok hpos h]
    refine ⟨by omega, by omega, fun other hother htake => varint_ok (by omega) ?_⟩
    refine readLoop_settled h ?_ ?_
    · rw [List.length_drop]
      omega
    · have := congrArg (List.drop pos) htake
      rwa [List.drop_take, List.drop_take, Nat.add_sub_cancel_left] at this

/-! ## Reading what was written -/

theorem parses_take {b : Bytes} (h : b.length = n) : Parses (take refuse n) b b := by
  intro before after
  subst h
  rw [take_ok (by simp only [List.length_append]; omega)]
  simp [slice]

theorem parses_u8 (b : UInt8) : Parses (u8 refuse) [b] b :=
  (parses_take (n := 1) (b := [b]) rfl).then (parses_pure b)

theorem parses_number {m : ℕ} (h : m < 256 ^ n) : Parses (number refuse n) (leBytes n m) m := by
  have hlen : (leBytes n m).length = n := leBytes_length n m
  refine (parses_take hlen).then ?_
  rw [Slice.exactly_ok hlen]
  change Parses (pure (ofLeBytes (leBytes n m))) [] m
  rw [ofLeBytes_leBytes h]
  exact parses_pure m

theorem parses_varint (v : UInt64) : Parses varint (Varint.writeU64 v) v := by
  intro before after
  refine varint_ok (by simp only [List.length_append]; omega) ?_
  rw [List.append_assoc, List.drop_left]
  exact Varint.readU64_writeU64 v after

end BufferReader

end Adabt.Storage
