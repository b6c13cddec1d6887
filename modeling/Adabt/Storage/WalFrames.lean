import Adabt.Library.Bytes
import Adabt.Storage.WalCodec

/-! # Frames and segments

A segment file is a header and frames, each a length, a checksum and a payload.
A file cut anywhere behind its header holds the frames that lie wholly before
the cut, for the reader and for the routine that truncates the tail alike. -/

set_option autoImplicit false

namespace Adabt.Storage
open Adabt.Core Adabt.Library

/-- FNV-1a. -/
def checksum (bytes : Bytes) : UInt32 :=
  bytes.foldl (fun h b => (h ^^^ b.toUInt32) * 0x01000193) 0x811c9dc5

namespace WalEntry

def frame (e : WalEntry) : Bytes :=
  leBytes 4 e.encodePayload.length ++ leBytes 4 (checksum e.encodePayload).toNat ++ e.encodePayload

end WalEntry

def frames (es : List WalEntry) : Bytes := es.flatMap WalEntry.frame

/-- The payload of the frame a buffer starts with, if length and checksum hold. -/
def nextPayload (buf : Bytes) : Option Bytes :=
  if buf.length < 8 then none
  else
    let len := ofLeBytes (slice buf 0 4)
    let want := UInt32.ofNat (ofLeBytes (slice buf 4 4))
    if maxEntry < len then none
    else if buf.length < 8 + len then none
    else if checksum (slice buf 8 len) ≠ want then none
    else some (slice buf 8 len)

/-- One payload read is one frame consumed, so the length of the buffer is fuel enough. -/
def decodeLoop : ℕ → Bytes → List WalEntry
  | 0, _ => []
  | fuel + 1, buf =>
    match nextPayload buf with
    | none => []
    | some payload =>
      match WalEntry.decodePayload payload with
      | .ok e => e :: decodeLoop fuel (buf.drop (8 + payload.length))
      | .error _ => []

/-- Every intact entry, stopping at the first damaged one. -/
def decodeFrames (buf : Bytes) : List WalEntry := decodeLoop buf.length buf

def intactLoop : ℕ → Bytes → ℕ
  | 0, _ => 0
  | fuel + 1, buf =>
    match nextPayload buf with
    | none => 0
    | some payload => 8 + payload.length + intactLoop fuel (buf.drop (8 + payload.length))

/-- The length of the longest prefix of a segment file made up of intact frames. -/
def intactPrefixLen (whole : Bytes) : ℕ :=
  if whole.length < segmentHeader then whole.length
  else segmentHeader + intactLoop whole.length (whole.drop segmentHeader)

def entriesIn (file : Bytes) : List WalEntry := decodeFrames (file.drop (min segmentHeader file.length))

/-! ## Segment headers -/

def segmentMagic : Bytes := [0x61, 0x44, 0x61, 0x42, 0x74, 0x57, 0x41, 0x4c]

def headerBody (firstLsn nanos : ℕ) : Bytes :=
  segmentMagic ++ leBytes 4 1 ++ leBytes 4 0 ++ leBytes 8 firstLsn ++ leBytes 8 nanos

/-- Magic, version, padding, first LSN, clock and checksum. -/
def headerBytes (firstLsn nanos : ℕ) : Bytes :=
  headerBody firstLsn nanos ++ leBytes 8 (checksum (headerBody firstLsn nanos)).toNat

/-- The first LSN and the clock of a segment, if its header checks out. -/
def readSegmentHeader (file : Bytes) : Option (ℕ × ℕ) :=
  let h := file.take segmentHeader
  if h.length < segmentHeader then none
  else if slice h 0 8 ≠ segmentMagic then none
  else if (checksum (slice h 0 32)).toNat ≠ ofLeBytes (slice h 32 8) then none
  else some (ofLeBytes (slice h 16 8), ofLeBytes (slice h 24 8))

/-! ## Frames one after another -/

theorem length_frame (e : WalEntry) : e.frame.length = 8 + e.encodePayload.length := by
  simp only [WalEntry.frame, List.length_append, leBytes_length]

theorem slice_left (xs ys : Bytes) {n : ℕ} (h : xs.length = n) : slice (xs ++ ys) 0 n = xs := by
  rw [slice, List.drop_zero, List.take_left' h]

theorem slice_right (xs ys : Bytes) {m n : ℕ} (h : xs.length = m) :
    slice (xs ++ ys) m n = slice ys 0 n := by
  rw [slice, List.drop_left' h, slice, List.drop_zero]

theorem nextPayload_frame {e : WalEntry} (h : e.Loggable) (rest : Bytes) :
    nextPayload (e.frame ++ rest) = some e.encodePayload := by
  have hsize := h.size
  have hmax : maxEntry < 2 ^ 32 := by decide
  have hlen : (e.frame ++ rest).length = 8 + e.encodePayload.length + rest.length := by
    rw [List.length_append, length_frame]
  have h₀ : slice (e.frame ++ rest) 0 4 = leBytes 4 e.encodePayload.length := by
    rw [WalEntry.frame, List.append_assoc, List.append_assoc]
    exact slice_left _ _ (leBytes_length _ _)
  have h₁ : slice (e.frame ++ rest) 4 4 = leBytes 4 (checksum e.encodePayload).toNat := by
    rw [WalEntry.frame, List.append_assoc, List.append_assoc, slice_right _ _ (leBytes_length _ _)]
    exact slice_left _ _ (leBytes_length _ _)
  have h₂ : slice (e.frame ++ rest) 8 e.encodePayload.length = e.encodePayload := by
    rw [WalEntry.frame, List.append_assoc, slice_right _ _ (by simp)]
    exact slice_left _ _ rfl
  unfold nextPayload
  rw [h₀, h₁, ofLeBytes_leBytes (n := 4) (by omega),
    ofLeBytes_leBytes (n := 4) (checksum e.encodePayload).toNat_lt, UInt32.ofNat_toNat]
  dsimp only
  rw [h₂, if_neg (by omega), if_neg (by omega), if_neg (by omega), if_neg (by simp)]

theorem nextPayload_short {buf : Bytes} (h : buf.length < 8) : nextPayload buf = none := if_pos h

/-- A frame that is not all there is not read, whatever its bytes. -/
theorem nextPayload_torn {e : WalEntry} (h : e.Loggable) {n : ℕ} (hn : n < e.frame.length) :
    nextPayload (e.frame.take n) = none := by
  have hsize := h.size
  have hmax : maxEntry < 2 ^ 32 := by decide
  have hl := length_frame e
  have hlen : (e.frame.take n).length = n := List.length_take_of_le (by omega)
  unfold nextPayload
  by_cases h8 : n < 8
  · rw [if_pos (by omega)]
  have h₀ : slice (e.frame.take n) 0 4 = leBytes 4 e.encodePayload.length := by
    rw [slice, List.drop_zero, List.take_take, min_eq_left (by omega), WalEntry.frame,
      List.append_assoc]
    exact List.take_left' (leBytes_length _ _)
  rw [h₀, ofLeBytes_leBytes (n := 4) (by omega), if_neg (by omega)]
  dsimp only
  rw [if_neg (by omega), if_pos (by omega)]

/-- The entries whose frames lie within a number of bytes. -/
def fitting : ℕ → List WalEntry → List WalEntry
  | _, [] => []
  | n, e :: es => if e.frame.length ≤ n then e :: fitting (n - e.frame.length) es else []

theorem fitting_le (n : ℕ) (es : List WalEntry) : fitting n es <+: es := by
  induction es generalizing n with
  | nil => exact List.prefix_rfl
  | cons e es ih =>
    rw [fitting]
    by_cases h : e.frame.length ≤ n
    · rw [if_pos h]
      exact (List.prefix_cons_inj e).mpr (ih _)
    · rw [if_neg h]
      exact List.nil_prefix

theorem fitting_mono {m n : ℕ} (h : m ≤ n) (es : List WalEntry) : fitting m es <+: fitting n es := by
  induction es generalizing m n with
  | nil => exact List.prefix_rfl
  | cons e es ih =>
    rw [fitting, fitting]
    by_cases hm : e.frame.length ≤ m
    · rw [if_pos hm, if_pos (hm.trans h)]
      exact (List.prefix_cons_inj e).mpr (ih (Nat.sub_le_sub_right h _))
    · rw [if_neg hm]
      exact List.nil_prefix

theorem fitting_all {n : ℕ} {es : List WalEntry} (h : (frames es).length ≤ n) :
    fitting n es = es := by
  induction es generalizing n with
  | nil => rfl
  | cons e es ih =>
    rw [frames, List.flatMap_cons, List.length_append] at h
    change e.frame.length + (frames es).length ≤ n at h
    rw [fitting, if_pos (by omega), ih (by omega)]

theorem length_fitting (n : ℕ) (es : List WalEntry) : (frames (fitting n es)).length ≤ n := by
  induction es generalizing n with
  | nil => exact Nat.zero_le n
  | cons e es ih =>
    rw [fitting]
    by_cases h : e.frame.length ≤ n
    · have := ih (n - e.frame.length)
      rw [if_pos h, frames, List.flatMap_cons, List.length_append]
      change e.frame.length + (frames _).length ≤ n
      omega
    · rw [if_neg h]
      exact Nat.zero_le n

/-- What a cut leaves of the frames: the whole ones, and part of the next one. -/
theorem take_frames (n : ℕ) (es : List WalEntry) :
    (frames es).take n = frames (fitting n es) ∨
      ∃ e k, e ∈ es ∧ k < e.frame.length ∧
        (frames es).take n = frames (fitting n es) ++ e.frame.take k := by
  induction es generalizing n with
  | nil => exact .inl (by simp [frames, fitting])
  | cons e es ih =>
    rw [frames, List.flatMap_cons, List.take_append, fitting]
    by_cases h : e.frame.length ≤ n
    · rw [if_pos h, List.take_of_length_le h]
      rcases ih (n - e.frame.length) with hw | ⟨e', k, hmem, hk, hw⟩
      · left
        exact congrArg (e.frame ++ ·) hw
      · right
        refine ⟨e', k, List.mem_cons_of_mem e hmem, hk, ?_⟩
        rw [frames, List.flatMap_cons, List.append_assoc]
        exact congrArg (e.frame ++ ·) hw
    · right
      refine ⟨e, n, List.mem_cons_self, by omega, ?_⟩
      rw [if_neg h, Nat.sub_eq_zero_of_le (by omega), List.take_zero]
      simp [frames]

/-! ## Reading frames -/

theorem decodeLoop_frames {es : List WalEntry} (h : ∀ e ∈ es, e.Loggable) (tail : Bytes) (fuel : ℕ)
    (hf : (frames es).length + tail.length ≤ fuel) :
    ∃ fuel', tail.length ≤ fuel' ∧ decodeLoop fuel (frames es ++ tail) = es ++ decodeLoop fuel' tail := by
  induction es generalizing fuel with
  | nil => exact ⟨fuel, by simpa [frames] using hf, rfl⟩
  | cons e es ih =>
    have hl := length_frame e
    rw [frames, List.flatMap_cons, List.length_append] at hf
    change e.frame.length + (frames es).length + tail.length ≤ fuel at hf
    obtain ⟨fuel, rfl⟩ : ∃ k, fuel = k + 1 := ⟨fuel - 1, by omega⟩
    obtain ⟨fuel', hf', hd⟩ := ih (fun e' he' => h e' (List.mem_cons_of_mem e he')) fuel (by omega)
    refine ⟨fuel', hf', ?_⟩
    rw [frames, List.flatMap_cons, List.append_assoc, decodeLoop,
      nextPayload_frame (h e List.mem_cons_self)]
    dsimp only
    rw [WalEntry.decode_encode (h e List.mem_cons_self), ← hl]
    dsimp only
    rw [List.drop_left, List.cons_append]
    exact congrArg (e :: ·) hd

theorem decodeLoop_none {fuel : ℕ} {buf : Bytes} (h : nextPayload buf = none) :
    decodeLoop fuel buf = [] := by
  cases fuel with
  | zero => rfl
  | succ fuel => rw [decodeLoop, h]

theorem intactLoop_none {fuel : ℕ} {buf : Bytes} (h : nextPayload buf = none) :
    intactLoop fuel buf = 0 := by
  cases fuel with
  | zero => rfl
  | succ fuel => rw [intactLoop, h]

theorem intactLoop_frames {es : List WalEntry} (h : ∀ e ∈ es, e.Loggable) (tail : Bytes)
    (ht : nextPayload tail = none) (fuel : ℕ) (hf : (frames es).length + tail.length ≤ fuel) :
    intactLoop fuel (frames es ++ tail) = (frames es).length := by
  induction es generalizing fuel with
  | nil => exact intactLoop_none ht
  | cons e es ih =>
    have hl := length_frame e
    rw [frames, List.flatMap_cons, List.length_append] at hf
    change e.frame.length + (frames es).length + tail.length ≤ fuel at hf
    obtain ⟨fuel, rfl⟩ : ∃ k, fuel = k + 1 := ⟨fuel - 1, by omega⟩
    rw [frames, List.flatMap_cons, List.append_assoc, intactLoop,
      nextPayload_frame (h e List.mem_cons_self)]
    dsimp only
    rw [← hl, List.drop_left, List.length_append]
    exact congrArg (e.frame.length + ·)
      (ih (fun e' he' => h e' (List.mem_cons_of_mem e he')) fuel (by omega))

/-- A cut buffer decodes to the entries that lie wholly before the cut. -/
theorem decodeFrames_take {es : List WalEntry} (h : ∀ e ∈ es, e.Loggable) (n : ℕ) :
    decodeFrames ((frames es).take n) = fitting n es := by
  have hfit : ∀ e ∈ fitting n es, e.Loggable := fun e he => h e ((fitting_le n es).subset he)
  rcases take_frames n es with hw | ⟨e, k, hmem, hk, hw⟩
  · rw [decodeFrames, hw]
    obtain ⟨fuel, -, hd⟩ := decodeLoop_frames hfit [] (frames (fitting n es)).length (by simp)
    rw [List.append_nil] at hd
    rw [hd, decodeLoop_none (nextPayload_short (by simp)), List.append_nil]
  · rw [decodeFrames, hw]
    obtain ⟨fuel, -, hd⟩ := decodeLoop_frames hfit (e.frame.take k)
      (frames (fitting n es) ++ e.frame.take k).length (by rw [List.length_append])
    rw [hd, decodeLoop_none (nextPayload_torn (h e hmem) hk), List.append_nil]

theorem decodeFrames_frames {es : List WalEntry} (h : ∀ e ∈ es, e.Loggable) :
    decodeFrames (frames es) = es := by
  have hd := decodeFrames_take h (frames es).length
  rwa [List.take_length, fitting_all le_rfl] at hd

/-- The prefix that truncation keeps ends with the last whole frame. -/
theorem intactLoop_take {es : List WalEntry} (h : ∀ e ∈ es, e.Loggable) {n fuel : ℕ}
    (hf : ((frames es).take n).length ≤ fuel) :
    intactLoop fuel ((frames es).take n) = (frames (fitting n es)).length := by
  have hfit : ∀ e ∈ fitting n es, e.Loggable := fun e he => h e ((fitting_le n es).subset he)
  rcases take_frames n es with hw | ⟨e, k, hmem, hk, hw⟩
  · rw [hw] at hf ⊢
    have hi := intactLoop_frames hfit [] (nextPayload_short (by simp)) fuel (by simpa using hf)
    rwa [List.append_nil] at hi
  · rw [hw] at hf ⊢
    exact intactLoop_frames hfit _ (nextPayload_torn (h e hmem) hk) fuel (by rwa [List.length_append] at hf)

/-! ## Files -/

theorem length_headerBytes (firstLsn nanos : ℕ) :
    (headerBytes firstLsn nanos).length = segmentHeader := by
  simp [headerBytes, headerBody, segmentMagic, segmentHeader]

theorem readSegmentHeader_file {firstLsn nanos : ℕ} (hf : firstLsn < 2 ^ 64) (hn : nanos < 2 ^ 64)
    (rest : Bytes) :
    readSegmentHeader (headerBytes firstLsn nanos ++ rest) = some (firstLsn, nanos) := by
  have hbody : (headerBody firstLsn nanos).length = 32 := by simp [headerBody, segmentMagic]
  have hc : (checksum (headerBody firstLsn nanos)).toNat < 256 ^ 8 :=
    (checksum _).toNat_lt.trans (by decide)
  have htake : (headerBytes firstLsn nanos ++ rest).take segmentHeader = headerBytes firstLsn nanos :=
    List.take_left' (length_headerBytes _ _)
  unfold readSegmentHeader
  rw [htake]
  dsimp only
  rw [if_neg (by rw [length_headerBytes]; omega)]
  have hmagic : slice (headerBytes firstLsn nanos) 0 8 = segmentMagic := by
    simp only [headerBytes, headerBody, List.append_assoc]
    exact slice_left _ _ rfl
  have hslice : slice (headerBytes firstLsn nanos) 0 32 = headerBody firstLsn nanos :=
    slice_left _ _ hbody
  have hsum : slice (headerBytes firstLsn nanos) 32 8 =
      leBytes 8 (checksum (headerBody firstLsn nanos)).toNat := by
    rw [headerBytes, slice_right _ _ hbody, slice, List.drop_zero]
    exact List.take_of_length_le (by simp)
  have hlsn : slice (headerBytes firstLsn nanos) 16 8 = leBytes 8 firstLsn := by
    rw [headerBytes, headerBody, List.append_assoc, List.append_assoc,
      slice_right _ _ (by simp [segmentMagic])]
    exact slice_left _ _ (leBytes_length _ _)
  have hclock : slice (headerBytes firstLsn nanos) 24 8 = leBytes 8 nanos := by
    rw [headerBytes, headerBody, List.append_assoc, slice_right _ _ (by simp [segmentMagic])]
    exact slice_left _ _ (leBytes_length _ _)
  rw [hmagic, hslice, hsum, hlsn, hclock, ofLeBytes_leBytes hc, ofLeBytes_leBytes (n := 8) hf,
    ofLeBytes_leBytes (n := 8) hn, if_neg (by simp), if_neg (by simp)]

end Adabt.Storage
