import Adabt.Core.Error
import Adabt.Library.Bytes

/-! # Pages

A page as its slots and payloads, and the bytes that it is kept in. -/

set_option autoImplicit false

namespace Adabt.Storage
open Adabt.Core Adabt.Library

/-! ## Slotted pages

A page is its slot array and the lower end of its payloads. What the byte image
adds to this (the offsets, the checksum, the header) is not looked at here. The
two bounds are fields: the slots stay below the payloads, and the payloads
inside the page. -/

def pageSize : ℕ := 8192

def headerSize : ℕ := 24

def slotSize : ℕ := 4

/-- The largest payload a page can hold, with one slot and nothing else. -/
def maxPayload : ℕ := pageSize - headerSize - slotSize

structure RecordLocation where
  page : ℕ
  slot : ℕ
  deriving DecidableEq, Repr

def liveBytes : List (Option Bytes) → ℕ
  | [] => 0
  | none :: rest => liveBytes rest
  | some b :: rest => b.length + liveBytes rest

theorem liveBytes_append (xs ys : List (Option Bytes)) :
    liveBytes (xs ++ ys) = liveBytes xs + liveBytes ys := by
  induction xs with
  | nil => simp [liveBytes]
  | cons x xs ih =>
    cases x with
    | none => exact ih
    | some b => simp only [List.cons_append, liveBytes, ih, Nat.add_assoc]

theorem liveBytes_set_some_le (xs : List (Option Bytes)) (i : ℕ) (b : Bytes) :
    liveBytes (xs.set i (some b)) ≤ b.length + liveBytes xs := by
  induction xs generalizing i with
  | nil => exact Nat.zero_le _
  | cons x xs ih =>
    cases i with
    | zero => cases x <;> simp [liveBytes]
    | succ i =>
      have := ih i
      cases x <;> simp only [List.set_cons_succ, liveBytes] <;> omega

theorem liveBytes_set_none_le (xs : List (Option Bytes)) (i : ℕ) :
    liveBytes (xs.set i none) ≤ liveBytes xs := by
  induction xs generalizing i with
  | nil => exact Nat.zero_le _
  | cons x xs ih =>
    cases i with
    | zero => cases x <;> simp [liveBytes]
    | succ i =>
      have := ih i
      cases x <;> simp only [List.set_cons_succ, liveBytes] <;> omega

def keepSlot : Option Bytes → List (Option Bytes) → List (Option Bytes)
  | none, [] => []
  | s, rest => s :: rest

/-- Forget the dead slots after the last live one. -/
def dropTrailingDead : List (Option Bytes) → List (Option Bytes)
  | [] => []
  | s :: rest => keepSlot s (dropTrailingDead rest)

theorem keepSlot_eq (s : Option Bytes) (rest : List (Option Bytes)) :
    keepSlot s rest = s :: rest ∨ s = none ∧ rest = [] ∧ keepSlot s rest = [] := by
  cases s with
  | some b => exact .inl rfl
  | none =>
    cases rest with
    | nil => exact .inr ⟨rfl, rfl, rfl⟩
    | cons t rest => exact .inl rfl

theorem length_dropTrailingDead_le (xs : List (Option Bytes)) :
    (dropTrailingDead xs).length ≤ xs.length := by
  induction xs with
  | nil => exact Nat.le_refl _
  | cons x xs ih =>
    rw [dropTrailingDead]
    rcases keepSlot_eq x (dropTrailingDead xs) with h | ⟨-, -, h⟩
    · rw [h]
      exact Nat.succ_le_succ ih
    · rw [h]
      exact Nat.zero_le _

theorem liveBytes_dropTrailingDead (xs : List (Option Bytes)) :
    liveBytes (dropTrailingDead xs) = liveBytes xs := by
  induction xs with
  | nil => rfl
  | cons x xs ih =>
    rw [dropTrailingDead]
    rcases keepSlot_eq x (dropTrailingDead xs) with h | ⟨rfl, hrest, h⟩
    · rw [h]
      cases x <;> simp [liveBytes, ih]
    · rw [hrest] at ih
      rw [h]
      exact ih

theorem getD_dropTrailingDead (xs : List (Option Bytes)) (i : ℕ) :
    (dropTrailingDead xs).getD i none = xs.getD i none := by
  induction xs generalizing i with
  | nil => rfl
  | cons x xs ih =>
    rw [dropTrailingDead]
    rcases keepSlot_eq x (dropTrailingDead xs) with h | ⟨rfl, hrest, h⟩
    · rw [h]
      cases i with
      | zero => rfl
      | succ i => exact ih i
    · rw [hrest] at ih
      rw [h]
      cases i with
      | zero => rfl
      | succ i => exact ih i

structure Page where
  slots : List (Option Bytes)
  freeEnd : ℕ
  slots_le : headerSize + slotSize * slots.length ≤ freeEnd
  payloads_le : freeEnd + liveBytes slots ≤ pageSize
  deriving DecidableEq

namespace Page

def new : Page := ⟨[], pageSize, by decide, by decide⟩

/-- The payload of a live slot. -/
def payloadAt (p : Page) (i : ℕ) : Option Bytes := p.slots.getD i none

/-- Bytes available for a payload and its slot. -/
def freeSpace (p : Page) : ℕ := p.freeEnd - (headerSize + slotSize * p.slots.length)

def costOf (len : ℕ) : ℕ := len + slotSize

def canFit (p : Page) (len : ℕ) : Bool := costOf len ≤ p.freeSpace

/-- The live slots, in slot order. -/
def liveSlots (p : Page) : List ℕ :=
  (List.range p.slots.length).filter fun i => (p.payloadAt i).isSome

def short (p : Page) (need : ℕ) : Error :=
  .corruption ("page has " ++ toString p.freeSpace ++ " free bytes, needs " ++ toString need)

def fill (p : Page) (i : ℕ) (payload : Bytes) (h : payload.length ≤ p.freeSpace) : Page where
  slots := p.slots.set i (some payload)
  freeEnd := p.freeEnd - payload.length
  slots_le := by
    have := p.slots_le
    rw [List.length_set]
    unfold freeSpace at h
    omega
  payloads_le := by
    have := p.slots_le
    have := p.payloads_le
    have := liveBytes_set_some_le p.slots i payload
    unfold freeSpace at h
    omega

def extend (p : Page) (payload : Bytes) (h : payload.length + slotSize ≤ p.freeSpace) : Page where
  slots := p.slots ++ [some payload]
  freeEnd := p.freeEnd - payload.length
  slots_le := by
    have := p.slots_le
    simp only [List.length_append, List.length_singleton, slotSize] at *
    unfold freeSpace slotSize at h
    omega
  payloads_le := by
    have := p.slots_le
    have := p.payloads_le
    rw [liveBytes_append]
    simp only [liveBytes]
    unfold freeSpace at h
    omega

/-- Store a payload, in the first dead slot if there is one. -/
def insert (p : Page) (payload : Bytes) : Except Error (Page × ℕ) :=
  if payload = [] then
    .error (.corruption "refusing to store an empty payload: offset 0 marks a dead slot")
  else if maxPayload < payload.length then
    .error (.corruption ("payload of " ++ toString payload.length ++
      " bytes exceeds page capacity " ++ toString maxPayload))
  else
    match p.slots.findIdx? Option.isNone with
    | some i =>
      if h : payload.length ≤ p.freeSpace then .ok (p.fill i payload h, i)
      else .error (p.short payload.length)
    | none =>
      if h : payload.length + slotSize ≤ p.freeSpace then .ok (p.extend payload h, p.slots.length)
      else .error (p.short (payload.length + slotSize))

def get (p : Page) (i : ℕ) : Except Error Bytes :=
  match p.slots[i]? with
  | none => .error (.corruption ("slot " ++ toString i ++ " out of range (page has " ++
      toString p.slots.length ++ ")"))
  | some none => .error (.corruption ("slot " ++ toString i ++ " is dead"))
  | some (some b) => .ok b

def kill (p : Page) (i : ℕ) : Page where
  slots := p.slots.set i none
  freeEnd := p.freeEnd
  slots_le := by
    rw [List.length_set]
    exact p.slots_le
  payloads_le :=
    (Nat.add_le_add_left (liveBytes_set_none_le p.slots i) _).trans p.payloads_le

def delete (p : Page) (i : ℕ) : Except Error Page :=
  if (p.payloadAt i).isSome then .ok (p.kill i)
  else .error (.corruption ("slot " ++ toString i ++ " is not live"))

/-- Bytes reclaimable by compaction. -/
def fragmentation (p : Page) : ℕ := pageSize - p.freeEnd - liveBytes p.slots

def compact (p : Page) : Page where
  slots := dropTrailingDead p.slots
  freeEnd := pageSize - liveBytes p.slots
  slots_le := by
    have := p.slots_le
    have := p.payloads_le
    have := Nat.mul_le_mul_left slotSize (length_dropTrailingDead_le p.slots)
    omega
  payloads_le := by
    have := p.payloads_le
    rw [liveBytes_dropTrailingDead]
    omega

@[simp] theorem payloadAt_new (i : ℕ) : new.payloadAt i = none := rfl

theorem payloadAt_fill (p : Page) {i : ℕ} {payload : Bytes}
    (h : payload.length ≤ p.freeSpace) (hi : i < p.slots.length) (j : ℕ) :
    (p.fill i payload h).payloadAt j = if j = i then some payload else p.payloadAt j := by
  simp only [payloadAt, fill, List.getD_eq_getElem?_getD, List.getElem?_set, if_pos hi]
  by_cases hj : i = j
  · subst hj
    simp
  · simp [hj, Ne.symm hj]

theorem payloadAt_extend (p : Page) {payload : Bytes}
    (h : payload.length + slotSize ≤ p.freeSpace) (j : ℕ) :
    (p.extend payload h).payloadAt j =
      if j = p.slots.length then some payload else p.payloadAt j := by
  simp only [payloadAt, extend, List.getD_eq_getElem?_getD, List.getElem?_append]
  by_cases hj : j < p.slots.length
  · simp [hj, hj.ne]
  · by_cases he : j = p.slots.length
    · simp [he]
    · have hlong : [some payload].length ≤ j - p.slots.length := by
        rw [List.length_singleton]
        omega
      rw [if_neg hj, if_neg he, List.getElem?_eq_none hlong,
        List.getElem?_eq_none (Nat.not_lt.mp hj)]

/-- A successful insert fills one slot that was not live, and changes no other. -/
theorem insert_eq_ok {p p' : Page} {payload : Bytes} {i : ℕ}
    (h : p.insert payload = .ok (p', i)) :
    p.payloadAt i = none ∧
      ∀ j, p'.payloadAt j = if j = i then some payload else p.payloadAt j := by
  unfold insert at h
  split at h
  · cases h
  split at h
  · cases h
  split at h
  · next k hk =>
    obtain ⟨hlt, hdead, -⟩ := List.findIdx?_eq_some_iff_getElem.mp hk
    split at h
    · cases h
      constructor
      · simpa [payloadAt, List.getD_eq_getElem?_getD, List.getElem?_eq_getElem hlt] using hdead
      · exact payloadAt_fill p _ hlt
    · cases h
  · split at h
    · cases h
      constructor
      · simp [payloadAt]
      · exact payloadAt_extend p _
    · cases h

theorem insert_of_canFit {p : Page} {payload : Bytes} (hne : payload ≠ [])
    (hfit : p.canFit payload.length) : ∃ p' i, p.insert payload = .ok (p', i) := by
  have hneed : payload.length + slotSize ≤ p.freeSpace := of_decide_eq_true hfit
  have hmax : payload.length ≤ maxPayload := by
    have := p.slots_le
    have := p.payloads_le
    unfold freeSpace headerSize slotSize at hneed
    unfold maxPayload pageSize headerSize slotSize
    unfold pageSize at this
    omega
  unfold insert
  rw [if_neg hne, if_neg (Nat.not_lt.mpr hmax)]
  split
  · rw [dif_pos (by omega)]
    exact ⟨_, _, rfl⟩
  · rw [dif_pos hneed]
    exact ⟨_, _, rfl⟩

theorem canFit_new {len : ℕ} (h : len ≤ maxPayload) : new.canFit len := by
  refine decide_eq_true ?_
  change len + slotSize ≤ pageSize - (headerSize + slotSize * 0)
  unfold maxPayload pageSize headerSize slotSize at h
  unfold pageSize headerSize slotSize
  omega

theorem get_eq_ok {p : Page} {i : ℕ} {b : Bytes} :
    p.get i = .ok b ↔ p.payloadAt i = some b := by
  unfold get payloadAt
  rw [List.getD_eq_getElem?_getD]
  cases p.slots[i]? with
  | none => simp
  | some s => cases s <;> simp

theorem payloadAt_kill (p : Page) (i j : ℕ) :
    (p.kill i).payloadAt j = if j = i then none else p.payloadAt j := by
  simp only [payloadAt, kill, List.getD_eq_getElem?_getD, List.getElem?_set]
  by_cases hj : i = j
  · subst hj
    simp
    split <;> rfl
  · simp [hj, Ne.symm hj]

@[simp] theorem payloadAt_compact (p : Page) (i : ℕ) : p.compact.payloadAt i = p.payloadAt i :=
  getD_dropTrailingDead p.slots i

theorem mem_liveSlots (p : Page) (i : ℕ) : i ∈ p.liveSlots ↔ (p.payloadAt i).isSome := by
  rw [liveSlots, List.mem_filter, List.mem_range, and_iff_right_iff_imp]
  intro h
  by_contra hi
  simp [payloadAt, List.getElem?_eq_none (Nat.not_lt.mp hi)] at h

end Page

/-! ## The byte image of a slotted page

A page as the code keeps it: 8192 bytes, with a checksum, an LSN, the number of
slots and the lower end of the payloads in the first 24, then the slots, each an
offset and a length. Every operation returns the bytes it leaves behind, also
when it fails. -/

structure PageImage where
  bytes : Bytes
  deriving DecidableEq

inductive UpdateOutcome where
  | inPlace
  | moved
  | doesNotFit
  deriving DecidableEq, Repr

namespace PageImage

/-! ## Header and slots -/

def read (p : PageImage) (start n : ℕ) : Bytes := slice p.bytes start n

def write (p : PageImage) (start : ℕ) (xs : Bytes) : PageImage := ⟨splice p.bytes start xs⟩

def u16At (p : PageImage) (start : ℕ) : ℕ := ofLeBytes (p.read start 2)

def setU16At (p : PageImage) (start v : ℕ) : PageImage := p.write start (leBytes 2 v)

def lsn (p : PageImage) : ℕ := ofLeBytes (p.read 4 8)

def setLsn (p : PageImage) (lsn : UInt64) : PageImage := p.write 4 (leBytes 8 lsn.toNat)

def slotCount (p : PageImage) : ℕ := p.u16At 12

def setSlotCount (p : PageImage) (v : ℕ) : PageImage := p.setU16At 12 v

def freeEnd (p : PageImage) : ℕ := p.u16At 14

def setFreeEnd (p : PageImage) (v : ℕ) : PageImage := p.setU16At 14 v

def new : PageImage := setFreeEnd ⟨List.replicate pageSize 0⟩ pageSize

def freeStart (p : PageImage) : ℕ := headerSize + p.slotCount * slotSize

/-- Bytes available for a payload and its slot. -/
def freeSpace (p : PageImage) : ℕ := p.freeEnd - p.freeStart

def slotAt (p : PageImage) (i : ℕ) : ℕ × ℕ :=
  (p.u16At (headerSize + i * slotSize), p.u16At (headerSize + i * slotSize + 2))

def setSlot (p : PageImage) (i off len : ℕ) : PageImage :=
  (p.setU16At (headerSize + i * slotSize) off).setU16At (headerSize + i * slotSize + 2) len

/-- Offset zero, which is inside the header, marks a dead slot. -/
def isLive (p : PageImage) (i : ℕ) : Bool := (p.slotAt i).1 ≠ 0

/-! ## Operations -/

/-- The copy of a payload to the lower end of the payloads, shared by every
operation that places one. -/
def copyDown (p : PageImage) (payload : Bytes) : PageImage :=
  (p.write (p.freeEnd - payload.length) payload).setFreeEnd (p.freeEnd - payload.length)

def insert (p : PageImage) (payload : Bytes) : PageImage × Except Error ℕ :=
  if payload = [] then
    (p, .error (.corruption "refusing to store an empty payload: offset 0 marks a dead slot"))
  else if maxPayload < payload.length then
    (p, .error (.corruption ("payload of " ++ toString payload.length ++
      " bytes exceeds page capacity " ++ toString maxPayload)))
  else
    let reuse := (List.range p.slotCount).find? fun i => !p.isLive i
    let need := payload.length + if reuse.isNone then slotSize else 0
    if p.freeSpace < need then
      (p, .error (.corruption ("page has " ++ toString p.freeSpace ++ " free bytes, needs " ++
        toString need)))
    else
      let off := p.freeEnd - payload.length
      let q := p.copyDown payload
      match reuse with
      | some i => (q.setSlot i off payload.length, .ok i)
      | none =>
        let i := q.slotCount
        ((q.setSlotCount (i + 1)).setSlot i off payload.length, .ok i)

def get (p : PageImage) (slot : ℕ) : Except Error Bytes :=
  if p.slotCount ≤ slot then
    .error (.corruption ("slot " ++ toString slot ++ " out of range (page has " ++
      toString p.slotCount ++ ")"))
  else
    let (off, len) := p.slotAt slot
    if off = 0 then .error (.corruption ("slot " ++ toString slot ++ " is dead"))
    else if off < headerSize ∨ pageSize < off + len then
      .error (.corruption ("slot " ++ toString slot ++ " points outside the page (" ++
        toString off ++ ".." ++ toString (off + len) ++ ")"))
    else .ok (p.read off len)

def notLive (slot : ℕ) : Error := .corruption ("slot " ++ toString slot ++ " is not live")

def delete (p : PageImage) (slot : ℕ) : PageImage × Except Error Unit :=
  if p.slotCount ≤ slot ∨ !p.isLive slot then (p, .error (notLive slot))
  else (p.setSlot slot 0 0, .ok ())

def update (p : PageImage) (slot : ℕ) (payload : Bytes) : PageImage × Except Error UpdateOutcome :=
  if p.slotCount ≤ slot ∨ !p.isLive slot then (p, .error (notLive slot))
  else
    let (off, len) := p.slotAt slot
    if payload.length ≤ len then
      ((p.write off payload).setSlot slot off payload.length, .ok .inPlace)
    else if payload.length ≤ p.freeSpace then
      let newOff := p.freeEnd - payload.length
      ((p.copyDown payload).setSlot slot newOff payload.length, .ok .moved)
    else (p, .ok .doesNotFit)

/-- The live slots with what `get` returns for them, in slot order. -/
def livePayloads (p : PageImage) : List (ℕ × Bytes) :=
  (List.range p.slotCount).filterMap fun i =>
    if p.isLive i then (p.get i).toOption.map (i, ·) else none

def place (p : PageImage) (entry : ℕ × Bytes) : PageImage :=
  (p.copyDown entry.2).setSlot entry.1 (p.freeEnd - entry.2.length) entry.2.length

def compact (p : PageImage) : PageImage :=
  let live := p.livePayloads
  let highestLive := (live.map (·.1 + 1)).foldl max 0
  let cleared := p.write headerSize (List.replicate (pageSize - headerSize) 0)
  let q := ((cleared.setSlotCount highestLive).setFreeEnd pageSize).setLsn (UInt64.ofNat p.lsn)
  live.foldl place q

/-! ## Serialisation -/

/-- FNV-1a over everything after the checksum itself. -/
def computeChecksum (bytes : Bytes) : UInt32 :=
  (bytes.drop 4).foldl (fun h b => (h ^^^ b.toUInt32) * 0x01000193) 0x811c9dc5

def sealPage (p : PageImage) : PageImage := p.write 0 (leBytes 4 (computeChecksum p.bytes).toNat)

/-- `{:#010x}`. -/
def hex (n : UInt32) : String :=
  "0x" ++ String.ofList ((Nat.toDigits 16 (2 ^ 32 + n.toNat)).drop 1)

def fromBytes (bytes : Bytes) : Except Error PageImage :=
  let stored := UInt32.ofNat (ofLeBytes (slice bytes 0 4))
  let actual := computeChecksum bytes
  if stored ≠ actual then
    .error (.corruption ("page checksum mismatch: stored " ++ hex stored ++ ", computed " ++
      hex actual))
  else
    let p : PageImage := ⟨bytes⟩
    let slotsEnd := headerSize + p.slotCount * slotSize
    if pageSize < slotsEnd ∨ pageSize < p.freeEnd then
      .error (.corruption "page header is self-inconsistent")
    else if p.freeEnd < slotsEnd then
      .error (.corruption "page slot array overlaps its payload region")
    else .ok p

end PageImage

end Adabt.Storage
