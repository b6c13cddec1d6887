import Adabt.Library.Fallible
import Adabt.Storage.Buffer
import Adabt.Storage.PageRuns

/-! # A page from disk

The operations of a page with the checks the language makes. The header of a page that
was read is sound and its slots are anything. Most operations need no more than the
header. Three go by a slot as they find it: a read inside the slot array, an update in
place and a compaction whose payloads overlap. -/

set_option autoImplicit false

namespace Adabt.Storage.PageImage
open Adabt.Core Adabt.Library

/-! ## The operations, checked

An operation that returns an error has not written before. -/

namespace Checked

def u16At (p : PageImage) (start : ℕ) : Except Fault ℕ := do
  let lo ← Slice.index p.bytes start
  let hi ← Slice.index p.bytes (start + 1)
  return ofLeBytes [lo, hi]

def write (p : PageImage) (start stop : ℕ) (xs : Bytes) : Except Fault PageImage := do
  let b ← Slice.copy p.bytes start stop xs
  return ⟨b⟩

def setU16At (p : PageImage) (start v : ℕ) : Except Fault PageImage :=
  write p start (start + 2) (leBytes 2 v)

def lsn (p : PageImage) : Except Fault ℕ := do
  let b ← Slice.range p.bytes 4 12
  return ofLeBytes b

def setLsn (p : PageImage) (lsn : UInt64) : Except Fault PageImage :=
  write p 4 12 (leBytes 8 lsn.toNat)

def slotCount (p : PageImage) : Except Fault ℕ := u16At p 12

def setSlotCount (p : PageImage) (v : ℕ) : Except Fault PageImage := setU16At p 12 v

def freeEnd (p : PageImage) : Except Fault ℕ := u16At p 14

def setFreeEnd (p : PageImage) (v : ℕ) : Except Fault PageImage := setU16At p 14 v

def freeStart (p : PageImage) : Except Fault ℕ := do
  let n ← slotCount p
  return headerSize + n * slotSize

def freeSpace (p : PageImage) : Except Fault ℕ := do
  let stop ← freeEnd p
  let start ← freeStart p
  return stop - start

def slotAt (p : PageImage) (i : ℕ) : Except Fault (ℕ × ℕ) := do
  let off ← u16At p (headerSize + i * slotSize)
  let len ← u16At p (headerSize + i * slotSize + 2)
  return (off, len)

def setSlot (p : PageImage) (i off len : ℕ) : Except Fault PageImage := do
  let p ← setU16At p (headerSize + i * slotSize) off
  setU16At p (headerSize + i * slotSize + 2) len

def isLive (p : PageImage) (i : ℕ) : Except Fault Bool := do
  let s ← slotAt p i
  return s.1 ≠ 0

def slots (p : PageImage) : Except Fault (List ℕ) := do
  let n ← slotCount p
  keepM (isLive p) (List.range n)

def liveCount (p : PageImage) : Except Fault ℕ := do
  let is ← slots p
  return is.length

/-- The page with the payload at the lower end of the payloads, and where it is. -/
def copyDown (p : PageImage) (payload : Bytes) : Except Fault (PageImage × ℕ) := do
  let stop ← freeEnd p
  let off ← minus stop payload.length
  let p ← write p off (off + payload.length) payload
  let p ← setFreeEnd p off
  return (p, off)

/-- The number behind a `u16`. -/
def next (i : ℕ) : Except Fault ℕ :=
  if i + 1 < 2 ^ 16 then .ok (i + 1) else .error (.panicked "attempt to add with overflow")

def insert (p : PageImage) (payload : Bytes) : Except Fault (PageImage × ℕ) :=
  if payload = [] then
    .error (.error (.corruption "refusing to store an empty payload: offset 0 marks a dead slot"))
  else if maxPayload < payload.length then
    .error (.error (.corruption ("payload of " ++ toString payload.length ++
      " bytes exceeds page capacity " ++ toString maxPayload)))
  else do
    let n ← slotCount p
    let reuse ← (List.range n).findM? fun i => do
      let live ← isLive p i
      return !live
    let need := payload.length + if reuse.isNone then slotSize else 0
    let free ← freeSpace p
    if free < need then
      .error (.error (.corruption ("page has " ++ toString free ++ " free bytes, needs " ++
        toString need)))
    else do
      let (p, off) ← copyDown p payload
      match reuse with
      | some i => do
        let p ← setSlot p i off payload.length
        return (p, i)
      | none => do
        let i ← slotCount p
        let count ← next i
        let p ← setSlotCount p count
        let p ← setSlot p i off payload.length
        return (p, i)

def get (p : PageImage) (slot : ℕ) : Except Fault Bytes := do
  let n ← slotCount p
  if n ≤ slot then
    .error (.error (.corruption ("slot " ++ toString slot ++ " out of range (page has " ++
      toString n ++ ")")))
  else do
    let (off, len) ← slotAt p slot
    if off = 0 then .error (.error (.corruption ("slot " ++ toString slot ++ " is dead")))
    else if off < headerSize ∨ pageSize < off + len then
      .error (.error (.corruption ("slot " ++ toString slot ++ " points outside the page (" ++
        toString off ++ ".." ++ toString (off + len) ++ ")")))
    else Slice.range p.bytes off (off + len)

/-- Whether there is such a slot and it is live, which `delete` and `update` ask first. -/
def isTaken (p : PageImage) (slot : ℕ) : Except Fault Bool := do
  let n ← slotCount p
  if n ≤ slot then return false else isLive p slot

def delete (p : PageImage) (slot : ℕ) : Except Fault (PageImage × Unit) := do
  let taken ← isTaken p slot
  if !taken then .error (.error (notLive slot))
  else do
    let p ← setSlot p slot 0 0
    return (p, ())

def update (p : PageImage) (slot : ℕ) (payload : Bytes) : Except Fault (PageImage × UpdateOutcome) := do
  let taken ← isTaken p slot
  if !taken then .error (.error (notLive slot))
  else do
    let (off, len) ← slotAt p slot
    if payload.length ≤ len then do
      let p ← write p off (off + payload.length) payload
      let p ← setSlot p slot off payload.length
      return (p, .inPlace)
    else do
      let free ← freeSpace p
      if payload.length ≤ free then do
        let (p, off) ← copyDown p payload
        let p ← setSlot p slot off payload.length
        return (p, .moved)
      else return (p, .doesNotFit)

/-- `if let Ok(..)`. -/
def tolerate {α : Type} : Except Fault α → Except Fault (Option α)
  | .ok a => .ok (some a)
  | .error (.error _) => .ok none
  | .error (.panicked message) => .error (.panicked message)

def gather (p : PageImage) : List ℕ → Except Fault (List (ℕ × Bytes))
  | [] => .ok []
  | i :: is => do
    let live ← isLive p i
    let found ← if live then tolerate (get p i) else .ok none
    let rest ← gather p is
    return (found.toList.map (i, ·)) ++ rest

def place (p : PageImage) (entry : ℕ × Bytes) : Except Fault PageImage := do
  let (p, off) ← copyDown p entry.2
  setSlot p entry.1 off entry.2.length

/-- The page that a compaction fills again. -/
def cleared (p : PageImage) (highestLive : ℕ) : Except Fault PageImage := do
  let lsn ← lsn p
  let p ← write p headerSize pageSize (List.replicate (pageSize - headerSize) 0)
  let p ← setSlotCount p highestLive
  let p ← setFreeEnd p pageSize
  setLsn p (UInt64.ofNat lsn)

def compact (p : PageImage) : Except Fault PageImage := do
  let n ← slotCount p
  let live ← gather p (List.range n)
  let p ← cleared p ((live.map (·.1 + 1)).foldl max 0)
  live.foldlM place p

/-- Bytes a compaction reclaims. -/
def fragmentation (p : PageImage) : Except Fault ℕ := do
  let is ← slots p
  let used ← is.mapM fun i => do
    let s ← slotAt p i
    return s.2
  let stop ← freeEnd p
  let occupied ← minus pageSize stop
  return occupied - used.sum

/-! ## Where they are those of the byte image -/

variable {p : PageImage} {xs : Bytes} {start stop i off len : ℕ}

theorem u16At_eq (h : start + 2 ≤ p.bytes.length) : u16At p start = .ok (p.u16At start) := by
  have hslice : slice p.bytes start 2 = [p.bytes[start], p.bytes[start + 1]] := by
    refine List.ext_getElem? fun k => ?_
    rw [getElem?_slice]
    match k with
    | 0 => simp
    | 1 => simp
    | k + 2 => simp
  rw [u16At, Slice.index_ok (by omega), ok_bind, Slice.index_ok (by omega), ok_bind,
    PageImage.u16At, read, hslice]
  rfl

theorem write_eq (h : start + xs.length = stop) (hstop : stop ≤ p.bytes.length) :
    write p start stop xs = .ok (p.write start xs) := by
  rw [write, Slice.copy_ok h hstop]
  rfl

theorem setU16At_eq (h : start + 2 ≤ p.bytes.length) (v : ℕ) :
    setU16At p start v = .ok (p.setU16At start v) :=
  write_eq (by rw [leBytes_length]) h

theorem setSlot_eq (h : headerSize + i * slotSize + 4 ≤ p.bytes.length) :
    setSlot p i off len = .ok (p.setSlot i off len) := by
  rw [setSlot, setU16At_eq (by omega), ok_bind,
    setU16At_eq (by rw [length_setU16At _ _ _ (by omega)]; omega)]
  rfl

theorem slotAt_eq (h : headerSize + i * slotSize + 4 ≤ p.bytes.length) :
    slotAt p i = .ok (p.slotAt i) := by
  rw [slotAt, u16At_eq (by omega), ok_bind, u16At_eq (by omega)]
  rfl

section Framed

variable (h : p.Framed)
include h

theorem slotCount_eq : slotCount p = .ok p.slotCount :=
  u16At_eq (by rw [h.size]; decide)

theorem freeEnd_eq : freeEnd p = .ok p.freeEnd := u16At_eq (by rw [h.size]; decide)

theorem freeSpace_eq : freeSpace p = .ok p.freeSpace := by
  rw [freeSpace, freeEnd_eq h, ok_bind, freeStart, slotCount_eq h]
  rfl

theorem slot_within (hi : i < p.slotCount) : headerSize + i * slotSize + 4 ≤ p.bytes.length := by
  have hslots := h.slots_le
  have hend := h.freeEnd_le
  rw [h.size]
  simp only [slotSize] at *
  omega

theorem isLive_eq (hi : i < p.slotCount) : isLive p i = .ok (p.isLive i) := by
  rw [isLive, slotAt_eq (slot_within h hi)]
  rfl

theorem slots_eq : slots p = .ok ((List.range p.slotCount).filter p.isLive) := by
  rw [slots, slotCount_eq h, ok_bind]
  exact keepM_ok fun i hi => isLive_eq h (List.mem_range.mp hi)

theorem isTaken_eq : isTaken p i = .ok (!decide (p.slotCount ≤ i ∨ (!p.isLive i) = true)) := by
  rw [isTaken, slotCount_eq h, ok_bind]
  by_cases hi : p.slotCount ≤ i
  · rw [if_pos hi, decide_eq_true (.inl hi)]
    rfl
  · rw [if_neg hi, isLive_eq h (Nat.not_le.mp hi)]
    simp [hi]

theorem copyDown_eq {payload : Bytes} (hfit : payload.length ≤ p.freeEnd) :
    copyDown p payload = .ok (p.copyDown payload, p.freeEnd - payload.length) := by
  have hend := h.freeEnd_le
  have hlen : (p.write (p.freeEnd - payload.length) payload).bytes.length = pageSize := by
    rw [length_write (by rw [h.size]; omega), h.size]
  rw [copyDown, freeEnd_eq h, ok_bind, minus_ok hfit, ok_bind,
    write_eq rfl (by rw [h.size]; omega), ok_bind, setFreeEnd, setU16At_eq (by rw [hlen]; decide)]
  rfl

/-- An image's answer: the page with the result, or the error alone. -/
def settle {α : Type} : PageImage × Except Error α → Except Fault (PageImage × α)
  | (q, .ok a) => .ok (q, a)
  | (_, .error e) => .error (.error e)

theorem insert_eq (payload : Bytes) : insert p payload = settle (p.insert payload) := by
  have hlive : ∀ i ∈ List.range p.slotCount,
      (do let live ← isLive p i; return !live : Except Fault Bool) = .ok (!p.isLive i) := by
    intro i hi
    rw [isLive_eq h (List.mem_range.mp hi)]
    rfl
  rw [insert, PageImage.insert]
  by_cases hempty : payload = []
  · rw [if_pos hempty, if_pos hempty]
    rfl
  by_cases hlong : maxPayload < payload.length
  · rw [if_neg hempty, if_neg hempty, if_pos hlong, if_pos hlong]
    rfl
  rw [if_neg hempty, if_neg hempty, if_neg hlong, if_neg hlong, slotCount_eq h, ok_bind,
    findM?_ok hlive, ok_bind, freeSpace_eq h, ok_bind]
  dsimp only
  have hslots := h.slots_le
  have hend := h.freeEnd_le
  have hfree := PageImage.freeSpace_eq p
  cases hreuse : (List.range p.slotCount).find? fun i => !p.isLive i with
  | some i =>
    have hi : i < p.slotCount := List.mem_range.mp (List.mem_of_find?_eq_some hreuse)
    simp only [Option.isNone_some, Bool.false_eq_true, if_false, Nat.add_zero]
    by_cases hfit : p.freeSpace < payload.length
    · rw [if_pos hfit, if_pos hfit]
      rfl
    · have hsize := (copyDown_copied h payload (Nat.not_lt.mp hfit)).size
      have hslot := slot_within h hi
      rw [h.size] at hslot
      rw [if_neg hfit, if_neg hfit, copyDown_eq h (by omega), ok_bind]
      dsimp only
      rw [setSlot_eq (by omega)]
      rfl
  | none =>
    simp only [Option.isNone_none, if_true]
    by_cases hfit : p.freeSpace < payload.length + slotSize
    · rw [if_pos hfit, if_pos hfit]
      rfl
    · have hcopied := copyDown_copied h payload (by omega)
      have hsize := hcopied.size
      have hcount := hcopied.slotCount
      simp only [headerSize, slotSize, pageSize] at hslots hend hfree hfit hsize
      have hwide : (p.copyDown payload).slotCount + 1 < 2 ^ 16 := by omega
      have hlen : ((p.copyDown payload).setSlotCount ((p.copyDown payload).slotCount + 1)).bytes.length =
          8192 := (length_setU16At _ _ _ (by omega)).trans hsize
      rw [if_neg (by simpa only [slotSize] using hfit), if_neg (by simpa only [slotSize] using hfit),
        copyDown_eq h (by omega), ok_bind]
      dsimp only
      rw [slotCount, u16At_eq (by omega), ok_bind]
      change (next (p.copyDown payload).slotCount >>= _) = _
      rw [next, if_pos hwide, ok_bind, setSlotCount, setU16At_eq (by omega), ok_bind]
      change (setSlot ((p.copyDown payload).setSlotCount ((p.copyDown payload).slotCount + 1))
        (p.copyDown payload).slotCount _ _ >>= _) = _
      rw [setSlot_eq (by simp only [headerSize, slotSize]; omega)]
      rfl

theorem get_eq : get p i = (p.get i).mapError Fault.error := by
  rw [get, PageImage.get, slotCount_eq h, ok_bind]
  by_cases hi : p.slotCount ≤ i
  · rw [if_pos hi, if_pos hi]
    rfl
  rw [if_neg hi, if_neg hi, slotAt_eq (slot_within h (Nat.not_le.mp hi)), ok_bind]
  dsimp only
  split_ifs with hdead hout
  · rfl
  · rfl
  · rw [Slice.range_ok (Nat.le_add_right _ _) (by rw [h.size]; omega), Nat.add_sub_cancel_left]
    rfl

theorem delete_eq : delete p i = settle (p.delete i) := by
  rw [delete, PageImage.delete, isTaken_eq h, ok_bind]
  by_cases hdead : p.slotCount ≤ i ∨ (!p.isLive i) = true
  · rw [if_pos hdead, decide_eq_true hdead]
    rfl
  · have hl := live_of_guard hdead
    rw [if_neg hdead, decide_eq_false hdead]
    change (setSlot p i 0 0 >>= _) = _
    rw [setSlot_eq (slot_within h hl.1)]
    rfl

theorem update_eq {payload : Bytes} (hin : p.Live i → payload.length ≤ (p.slotAt i).2 →
    (p.slotAt i).1 + payload.length ≤ pageSize) :
    update p i payload = settle (p.update i payload) := by
  rw [update, PageImage.update, isTaken_eq h, ok_bind]
  by_cases hdead : p.slotCount ≤ i ∨ (!p.isLive i) = true
  · rw [if_pos hdead, decide_eq_true hdead]
    rfl
  have hl := live_of_guard hdead
  have hslot := slot_within h hl.1
  rw [if_neg hdead, decide_eq_false hdead]
  change (slotAt p i >>= _) = _
  rw [slotAt_eq hslot, ok_bind]
  dsimp only
  by_cases hshort : payload.length ≤ (p.slotAt i).2
  · have hstop := hin hl hshort
    rw [← h.size] at hstop
    rw [if_pos hshort, if_pos hshort, write_eq rfl hstop, ok_bind,
      setSlot_eq (by rw [length_write hstop]; exact hslot)]
    rfl
  rw [if_neg hshort, if_neg hshort, freeSpace_eq h, ok_bind]
  by_cases hfit : payload.length ≤ p.freeSpace
  · have hfree := PageImage.freeSpace_eq p
    have hsize := (copyDown_copied h payload hfit).size
    rw [if_pos hfit, if_pos hfit, copyDown_eq h (by omega), ok_bind]
    dsimp only
    rw [setSlot_eq (by rwa [hsize, ← h.size])]
    rfl
  · rw [if_neg hfit, if_neg hfit]
    rfl

theorem gather_eq {is : List ℕ} (his : ∀ i ∈ is, i < p.slotCount) :
    gather p is = .ok (is.filterMap fun i =>
      if p.isLive i then (p.get i).toOption.map (i, ·) else none) := by
  induction is with
  | nil => rfl
  | cons i is ih =>
    obtain ⟨hi, hrest⟩ := List.forall_mem_cons.mp his
    rw [gather, isLive_eq h hi, ok_bind, get_eq h]
    cases hlive : p.isLive i with
    | false =>
      rw [List.filterMap_cons_none (by rw [hlive]; rfl)]
      change (gather p is >>= _) = _
      rw [ih hrest]
      rfl
    | true =>
      cases hget : p.get i with
      | ok b =>
        rw [List.filterMap_cons_some (b := (i, b)) (by rw [hlive, hget]; rfl)]
        change (gather p is >>= _) = _
        rw [ih hrest]
        rfl
      | error e =>
        rw [List.filterMap_cons_none (by rw [hlive, hget]; rfl)]
        change (gather p is >>= _) = _
        rw [ih hrest]
        rfl

theorem place_eq {e : ℕ × Bytes} (he : e.1 < p.slotCount) (hfit : e.2.length ≤ p.freeSpace) :
    place p e = .ok (p.place e) := by
  have hfree := PageImage.freeSpace_eq p
  have hslot := slot_within h he
  rw [place, copyDown_eq h (by omega), ok_bind]
  dsimp only
  rw [setSlot_eq (by rwa [(copyDown_copied h e.2 hfit).size, ← h.size])]
  rfl

end Framed

/-- What has room between the slots and the payloads can be placed. -/
theorem foldlM_place {entries : List (ℕ × Bytes)} {q : PageImage} (hq : q.Framed)
    (hslots : ∀ e ∈ entries, e.1 < q.slotCount)
    (hroom : headerSize + q.slotCount * slotSize + entryBytes entries ≤ q.freeEnd) :
    entries.foldlM place q = .ok (entries.foldl PageImage.place q) ∧
      (entries.foldl PageImage.place q).Framed := by
  induction entries generalizing q with
  | nil => exact ⟨rfl, hq⟩
  | cons e entries ih =>
    obtain ⟨he, hrest⟩ := List.forall_mem_cons.mp hslots
    rw [entryBytes, List.map_cons, List.sum_cons] at hroom
    change headerSize + q.slotCount * slotSize + (e.2.length + entryBytes entries) ≤ q.freeEnd
      at hroom
    have hfit : e.2.length ≤ q.freeSpace := by
      rw [PageImage.freeSpace_eq]
      omega
    have hplaced : Placed q (q.place e) e.1 e.2 := placed_reused hq he hfit
    have hcount : (q.place e).slotCount = q.slotCount := by
      rw [hplaced.slotCount]
      omega
    have hfits : q.Fits e.1 e.2 :=
      ⟨by rw [show max q.slotCount (e.1 + 1) = q.slotCount by omega]; omega, he.le⟩
    rw [List.foldlM_cons, place_eq hq he hfit, ok_bind, List.foldl_cons]
    exact ih (hplaced.framed hq hfits) (fun e' he' => hcount ▸ hrest e' he')
      (by rw [hcount, hplaced.freeEnd]; omega)

theorem cleared_eq (hsize : p.bytes.length = pageSize) (highest : ℕ) :
    cleared p highest = .ok (p.cleared highest) := by
  have hroom : headerSize + (List.replicate (pageSize - headerSize) (0 : UInt8)).length = pageSize := by
    rw [List.length_replicate]
    rfl
  have hlsn : lsn p = .ok p.lsn := by
    rw [lsn, Slice.range_ok (by decide) (by rw [hsize]; decide)]
    rfl
  have hzeros : (p.write headerSize (List.replicate (pageSize - headerSize) 0)).bytes.length =
      pageSize := (length_write (by omega)).trans hsize
  rw [cleared, hlsn, ok_bind, write_eq hroom (by omega), ok_bind, PageImage.cleared]
  generalize p.write headerSize (List.replicate (pageSize - headerSize) 0) = q at hzeros
  have hcount : (q.setU16At 12 highest).bytes.length = pageSize :=
    (length_setU16At _ _ _ (by rw [hzeros]; decide)).trans hzeros
  have hstop : ((q.setU16At 12 highest).setU16At 14 pageSize).bytes.length = pageSize :=
    (length_setU16At _ _ _ (by rw [hcount]; decide)).trans hcount
  rw [setSlotCount, setU16At_eq (by rw [hzeros]; decide), ok_bind, setFreeEnd,
    setU16At_eq (by rw [hcount]; decide), ok_bind, setLsn,
    write_eq (by rw [leBytes_length]) (by rw [hstop]; decide)]
  rfl

theorem compact_eq (h : p.Framed)
    (hroom : headerSize + p.highestLive * slotSize + entryBytes p.livePayloads ≤ pageSize) :
    compact p = .ok p.compact ∧ p.compact.Framed := by
  obtain ⟨hblank, hcount, -⟩ := cleared_spec h.size p.highestLive (by omega)
  obtain ⟨hplace, hframed⟩ := foldlM_place hblank.valid.framed
    (fun e he => by
      rw [hcount]
      exact (le_foldl_max _ 0).2 _ (List.mem_map_of_mem he))
    (by rwa [hcount, hblank.freeEnd])
  refine ⟨?_, hframed⟩
  rw [compact, slotCount_eq h, ok_bind, gather_eq h fun i hi => List.mem_range.mp hi, ok_bind]
  change (cleared p p.highestLive >>= fun q => p.livePayloads.foldlM place q) = _
  rw [cleared_eq h.size, ok_bind, hplace]
  rfl

theorem fragmentation_returns (h : p.Framed) : ∃ n, fragmentation p = .ok n := by
  have hlens : ((List.range p.slotCount).filter p.isLive).mapM (fun i => do
      let s ← slotAt p i
      return s.2) = Except.ok (((List.range p.slotCount).filter p.isLive).map fun i => (p.slotAt i).2) := by
    refine mapM_ok ?_
    rw [List.forall₂_map_right_iff, List.forall₂_same]
    intro i hi
    rw [slotAt_eq (slot_within h (List.mem_range.mp (List.mem_filter.mp hi).1))]
    rfl
  refine ⟨pageSize - p.freeEnd -
    (((List.range p.slotCount).filter p.isLive).map fun i => (p.slotAt i).2).sum, ?_⟩
  rw [fragmentation, slots_eq h, ok_bind, hlens, ok_bind, freeEnd_eq h, ok_bind, minus_ok h.freeEnd_le]
  rfl

end Checked

/-! ## Runs -/

inductive Op where
  | insert (payload : Bytes)
  | get (slot : ℕ)
  | delete (slot : ℕ)
  | update (slot : ℕ) (payload : Bytes)
  | compact
  | slots
  | liveCount
  | fragmentation

/-- The page a call leaves, which is the old one where it returns an error. -/
def leaves {α : Type} (p : PageImage) : Except Fault (PageImage × α) → Except Fault PageImage
  | .ok (q, _) => .ok q
  | .error (.error _) => .ok p
  | .error (.panicked message) => .error (.panicked message)

def step (p : PageImage) : Op → Except Fault PageImage
  | .insert payload => leaves p (Checked.insert p payload)
  | .get slot => leaves p ((Checked.get p slot).map (p, ·))
  | .delete slot => leaves p (Checked.delete p slot)
  | .update slot payload => leaves p (Checked.update p slot payload)
  | .compact => Checked.compact p
  | .slots => leaves p ((Checked.slots p).map (p, ·))
  | .liveCount => leaves p ((Checked.liveCount p).map (p, ·))
  | .fragmentation => leaves p ((Checked.fragmentation p).map (p, ·))

/-- It does not end the program, the header stays sound, and what is read lies past the slots. -/
structure Safe (p : PageImage) (op : Op) : Prop where
  returns : ∃ q, step p op = .ok q ∧ q.Framed
  outside : ∀ slot b, op = .get slot → Checked.get p slot = .ok b →
    b = p.read (p.slotAt slot).1 (p.slotAt slot).2 ∧ (b = [] ∨ p.freeStart ≤ (p.slotAt slot).1)

/-- What a call asks of a slot: a payload that is read starts past the slots, one that is
replaced in place ends in the page and leaves the counts of the header alone, and those a
compaction keeps have room together. -/
def Tame (p : PageImage) : Op → Prop
  | .get slot => p.Live slot → headerSize ≤ (p.slotAt slot).1 → p.regionEnd slot ≤ pageSize →
    (p.slotAt slot).2 = 0 ∨ p.freeStart ≤ (p.slotAt slot).1
  | .update slot payload => p.Live slot → payload.length ≤ (p.slotAt slot).2 →
    (p.slotAt slot).1 + payload.length ≤ pageSize ∧
      (payload = [] ∨ 16 ≤ (p.slotAt slot).1 ∨ (p.slotAt slot).1 + payload.length ≤ 12)
  | .compact => headerSize + p.highestLive * slotSize + entryBytes p.livePayloads ≤ pageSize
  | _ => True

variable {p : PageImage} {payload : Bytes} {slot : ℕ}

theorem framed_of_fromBytes {bytes : Bytes} (hsize : bytes.length = pageSize)
    (h : fromBytes bytes = .ok p) : p.Framed := by
  rw [fromBytes] at h
  dsimp only at h
  split_ifs at h with hsum hbounds hoverlap
  cases h
  exact ⟨hsize, Nat.not_lt.mp hoverlap, Nat.not_lt.mp fun hlt => hbounds (.inr hlt)⟩

theorem insert_framed (h : p.Framed) : leaves p (Checked.insert p payload) = .ok (p.insert payload).1 ∧
    (p.insert payload).1.Framed := by
  have hspec := insert_spec h payload
  rw [Checked.insert_eq h]
  cases hr : p.insert payload with
  | mk q x =>
    rw [hr] at hspec
    cases hspec with
    | failed e => exact ⟨rfl, h⟩
    | stored q i hplaced hfit _ => exact ⟨rfl, hplaced.framed h hfit⟩

theorem delete_framed (h : p.Framed) : leaves p (Checked.delete p slot) = .ok (p.delete slot).1 ∧
    (p.delete slot).1.Framed := by
  have hspec := delete_spec h slot
  rw [Checked.delete_eq h]
  cases hr : p.delete slot with
  | mk q x =>
    rw [hr] at hspec
    cases hspec with
    | failed e => exact ⟨rfl, h⟩
    | killed q _ hkilled =>
      refine ⟨rfl, hkilled.size.trans h.size, ?_, ?_⟩
      · rw [hkilled.slotCount, hkilled.freeEnd]
        exact h.slots_le
      · rw [hkilled.freeEnd]
        exact h.freeEnd_le

/-- A header whose counts are as they were is as sound as it was. -/
theorem Framed.of_same {q : PageImage} {lo hi : ℕ} (h : p.Framed) (hsame : Same lo hi p q)
    (hapart : 16 ≤ lo ∨ hi ≤ 12) : q.Framed := by
  have hcount : q.slotCount = p.slotCount := hsame.u16At (by omega)
  have hend : q.freeEnd = p.freeEnd := hsame.u16At (by omega)
  refine ⟨hsame.size.trans h.size, ?_, ?_⟩
  · rw [hcount, hend]
    exact h.slots_le
  · rw [hend]
    exact h.freeEnd_le

theorem write_framed (h : p.Framed) {off : ℕ} (hstop : off + payload.length ≤ pageSize)
    (happart : payload = [] ∨ 16 ≤ off ∨ off + payload.length ≤ 12) : (p.write off payload).Framed := by
  rcases happart with rfl | happart
  · have hsame : p.write off [] = p := by
      rw [write, splice, List.append_nil]
      exact congrArg PageImage.mk (List.take_append_drop off p.bytes)
    rwa [hsame]
  · exact h.of_same (Same.write p off payload (by rwa [h.size])) happart

theorem setSlot_framed (h : p.Framed) {i : ℕ} (hi : headerSize + i * slotSize + 4 ≤ p.bytes.length)
    (off len : ℕ) : (p.setSlot i off len).Framed :=
  h.of_same (setSlot_same p i off len hi) (.inl (by
    rw [headerSize]
    omega))

theorem update_framed (h : p.Framed) (htame : p.Tame (.update slot payload)) :
    leaves p (Checked.update p slot payload) = .ok (p.update slot payload).1 ∧
      (p.update slot payload).1.Framed := by
  rw [Checked.update_eq h fun hl hshort => (htame hl hshort).1, update]
  by_cases hdead : p.slotCount ≤ slot ∨ (!p.isLive slot) = true
  · rw [if_pos hdead]
    exact ⟨rfl, h⟩
  have hl := live_of_guard hdead
  rw [if_neg hdead]
  dsimp only
  by_cases hshort : payload.length ≤ (p.slotAt slot).2
  · obtain ⟨hstop, hapart⟩ := htame hl hshort
    have hwritten := write_framed h hstop hapart
    rw [if_pos hshort]
    refine ⟨rfl, setSlot_framed hwritten ?_ _ _⟩
    rw [hwritten.size, ← h.size]
    exact Checked.slot_within h hl.1
  rw [if_neg hshort]
  by_cases hfit : payload.length ≤ p.freeSpace
  · have hplaced := placed_reused h hl.1 hfit
    have hslots := h.slots_le
    have hlt := hl.1
    rw [if_pos hfit]
    rw [freeSpace_eq] at hfit
    refine ⟨rfl, hplaced.framed h ⟨?_, hlt.le⟩⟩
    rw [show max p.slotCount (slot + 1) = p.slotCount by omega]
    omega
  · rw [if_neg hfit]
    exact ⟨rfl, h⟩

theorem get_leaves (h : p.Framed) : leaves p ((Checked.get p slot).map (p, ·)) = .ok p := by
  rw [Checked.get_eq h]
  cases p.get slot with
  | ok b => rfl
  | error e => rfl

theorem get_outside (h : p.Framed) (htame : p.Tame (.get slot)) {b : Bytes}
    (hget : Checked.get p slot = .ok b) :
    b = p.read (p.slotAt slot).1 (p.slotAt slot).2 ∧ (b = [] ∨ p.freeStart ≤ (p.slotAt slot).1) := by
  rw [Checked.get_eq h, PageImage.get] at hget
  dsimp only at hget
  split_ifs at hget with hrange hdead hout
  · cases hget
  · cases hget
  · cases hget
  · cases hget
    rw [not_or, Nat.not_lt, Nat.not_lt] at hout
    refine ⟨rfl, ?_⟩
    rcases htame ⟨Nat.not_le.mp hrange, hdead⟩ hout.1 hout.2 with hempty | hpast
    · left
      rw [hempty, read, slice, List.take_zero]
    · exact .inr hpast

/-- One call on a page whose header is sound. -/
theorem step_safe (h : p.Framed) (op : Op) (htame : p.Tame op) : Safe p op where
  returns := by
    cases op with
    | insert payload => exact ⟨_, insert_framed h⟩
    | get slot => exact ⟨p, get_leaves h, h⟩
    | delete slot => exact ⟨_, delete_framed h⟩
    | update slot payload => exact ⟨_, update_framed h htame⟩
    | compact => exact ⟨_, Checked.compact_eq h htame⟩
    | slots =>
      refine ⟨p, ?_, h⟩
      rw [step, Checked.slots_eq h]
      rfl
    | liveCount =>
      refine ⟨p, ?_, h⟩
      rw [step, Checked.liveCount, Checked.slots_eq h]
      rfl
    | fragmentation =>
      obtain ⟨n, hn⟩ := Checked.fragmentation_returns h
      refine ⟨p, ?_, h⟩
      rw [step, hn]
      rfl
  outside := by
    rintro slot b rfl hget
    exact get_outside h htame hget

/-- The pages that calls of that kind lead to. -/
inductive Reached (start : PageImage) : PageImage → Prop
  | start : Reached start start
  | step {p q : PageImage} {op : Op} (hp : Reached start p) (htame : p.Tame op)
      (hstep : p.step op = .ok q) : Reached start q

theorem Reached.framed {start : PageImage} (hstart : start.Framed) (h : Reached start p) :
    p.Framed := by
  induction h with
  | start => exact hstart
  | @step p q op _ htame hstep ih =>
    obtain ⟨q', hq', hframed⟩ := (step_safe ih op htame).returns
    cases hstep.symm.trans hq'
    exact hframed

/-- Whatever a page that was read holds, calls that ask of the slots what they rely on keep its
header sound, and the next one is safe. -/
theorem read_page_safe {bytes : Bytes} (hsize : bytes.length = pageSize) {start : PageImage}
    (hread : fromBytes bytes = .ok start) (h : Reached start p) :
    p.Framed ∧ ∀ op, p.Tame op → p.Safe op := by
  have hframed := h.framed (framed_of_fromBytes hsize hread)
  exact ⟨hframed, fun op htame => step_safe hframed op htame⟩

/-! Pages as a disk may hold them. -/

/-- One slot, pointing where its author likes. -/
def forged (off len : ℕ) : PageImage := ((new.setSlotCount 1).setSlot 0 off len).sealPage

theorem forged_read (off len : ℕ) :
    (forged off len).bytes.length = pageSize ∧
      fromBytes (forged off len).bytes = .ok (forged off len) := by
  have hcounted : (new.setSlotCount 1).Framed :=
    ⟨by decide +kernel, by decide +kernel, by decide +kernel⟩
  have hframed := setSlot_framed hcounted (i := 0) (by decide +kernel) off len
  exact ⟨(sealPage_same hframed.size).size.trans hframed.size, fromBytes_sealPage hframed⟩

/-- One payload, at the end of the page. -/
theorem read_page_calls : (forged 8000 4).Safe (.get 0) ∧ (forged 8000 4).Safe .compact := by
  have h := read_page_safe (forged_read 8000 4).1 (forged_read 8000 4).2 .start
  refine ⟨h.2 _ fun _ _ _ => .inr (by decide +kernel), h.2 _ ?_⟩
  change _ ≤ _
  decide +kernel

/-- A read of a slot that points at itself returns the slot, an update in place past the end of
the page ends the program, and a compaction writes the payload over the slot. -/
theorem forged_unsafe :
    (¬∀ bytes start slot, bytes.length = pageSize → fromBytes bytes = .ok start →
      start.Safe (.get slot)) ∧
    (¬∀ bytes start slot payload, bytes.length = pageSize → fromBytes bytes = .ok start →
      start.Safe (.update slot payload)) ∧
    ¬∀ bytes start, bytes.length = pageSize → fromBytes bytes = .ok start → start.Safe .compact := by
  refine ⟨fun h => ?_, fun h => ?_, fun h => ?_⟩
  · have hsafe := h _ _ 0 (forged_read 24 4).1 (forged_read 24 4).2
    have hget : (Checked.get (forged 24 4) 0).toOption = some [24, 0, 4, 0] := by decide +kernel
    cases hg : Checked.get (forged 24 4) 0 with
    | error e =>
      rw [hg] at hget
      cases hget
    | ok b =>
      rw [hg] at hget
      cases hget
      rcases (hsafe.outside 0 _ rfl hg).2 with hempty | hpast
      · cases hempty
      · exact absurd hpast (by decide +kernel)
  · have hsafe := h _ _ 0 [7, 7, 7] (forged_read 8190 3).1 (forged_read 8190 3).2
    obtain ⟨q, hq, -⟩ := hsafe.returns
    have hnone : (step (forged 8190 3) (.update 0 [7, 7, 7])).toOption = none := by decide +kernel
    rw [hq] at hnone
    cases hnone
  · have hsafe := h _ _ (forged_read 24 8168).1 (forged_read 24 8168).2
    obtain ⟨q, hq, hframed⟩ := hsafe.returns
    have hover : ((step (forged 24 8168) .compact).toOption.map fun q =>
        decide (headerSize + q.slotCount * slotSize ≤ q.freeEnd)) = some false := by decide +kernel
    rw [hq] at hover
    exact of_decide_eq_false (Option.some.inj hover) hframed.slots_le

end Adabt.Storage.PageImage
