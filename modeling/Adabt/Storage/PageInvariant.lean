import Adabt.Storage.Page

/-! # What the operations do to the bytes of a page

Reads over writes give, for each operation, the header, the slots and the
payload regions it leaves. The invariant keeps the slots below the payloads and
the payloads apart. -/

set_option autoImplicit false

namespace Adabt.Storage.PageImage
open Adabt.Core Adabt.Library

variable {p q : PageImage} {payload xs : Bytes} {start at' n i j v off len : ℕ}

/-! ## Reads over writes -/

theorem length_write (h : start + xs.length ≤ p.bytes.length) :
    (p.write start xs).bytes.length = p.bytes.length := length_splice h

theorem read_write_same (p : PageImage) (start : ℕ) (xs : Bytes)
    (h : start + xs.length ≤ p.bytes.length) :
    (p.write start xs).read start xs.length = xs := slice_splice_same h

theorem read_write_apart (h : start + xs.length ≤ p.bytes.length)
    (hd : at' + n ≤ start ∨ start + xs.length ≤ at') :
    (p.write start xs).read at' n = p.read at' n := slice_splice_apart h hd

theorem length_setU16At (p : PageImage) (start v : ℕ) (h : start + 2 ≤ p.bytes.length) :
    (p.setU16At start v).bytes.length = p.bytes.length :=
  length_write (by rwa [leBytes_length])

theorem read_setU16At (h : start + 2 ≤ p.bytes.length) (hd : at' + n ≤ start ∨ start + 2 ≤ at') :
    (p.setU16At start v).read at' n = p.read at' n := by
  apply read_write_apart
  · rwa [leBytes_length]
  · rwa [leBytes_length]

theorem u16At_setU16At (h : start + 2 ≤ p.bytes.length) (hv : v < 65536) :
    (p.setU16At start v).u16At start = v := by
  have hr := read_write_same p start (leBytes 2 v) (by rwa [leBytes_length])
  rw [leBytes_length] at hr
  rw [u16At, setU16At, hr, ofLeBytes_leBytes (by omega)]

theorem u16At_apart (h : start + 2 ≤ p.bytes.length) (hd : at' + 2 ≤ start ∨ start + 2 ≤ at') :
    (p.setU16At start v).u16At at' = p.u16At at' := by
  rw [u16At, u16At, read_setU16At h hd]

/-- What two pages have in common where only part of their bytes differ. -/
structure Same (lo hi : ℕ) (p q : PageImage) : Prop where
  size : q.bytes.length = p.bytes.length
  read : ∀ at' n, at' + n ≤ lo ∨ hi ≤ at' → q.read at' n = p.read at' n

namespace Same

theorem write (p : PageImage) (start : ℕ) (xs : Bytes) (h : start + xs.length ≤ p.bytes.length) :
    Same start (start + xs.length) p (p.write start xs) :=
  ⟨length_write h, fun _ _ hd => read_write_apart h hd⟩

theorem setU16At (p : PageImage) (start v : ℕ) (h : start + 2 ≤ p.bytes.length) :
    Same start (start + 2) p (p.setU16At start v) :=
  ⟨length_setU16At p start v h, fun _ _ hd => read_setU16At h hd⟩

theorem u16At {lo hi : ℕ} (h : Same lo hi p q) (hd : at' + 2 ≤ lo ∨ hi ≤ at') :
    q.u16At at' = p.u16At at' := by
  rw [PageImage.u16At, PageImage.u16At, h.read at' 2 hd]

theorem slotAt {lo hi : ℕ} (h : Same lo hi p q)
    (hd : headerSize + i * slotSize + 4 ≤ lo ∨ hi ≤ headerSize + i * slotSize) :
    q.slotAt i = p.slotAt i := by
  rw [PageImage.slotAt, PageImage.slotAt, h.u16At (by omega), h.u16At (by omega)]

end Same

/-! ## Single steps -/

theorem setSlot_same (p : PageImage) (i off len : ℕ)
    (h : headerSize + i * slotSize + 4 ≤ p.bytes.length) :
    Same (headerSize + i * slotSize) (headerSize + i * slotSize + 4) p (p.setSlot i off len) := by
  have h₁ := Same.setU16At p (headerSize + i * slotSize) off (by omega)
  have h₂ := Same.setU16At (p.setU16At (headerSize + i * slotSize) off)
    (headerSize + i * slotSize + 2) len (by rw [h₁.size]; omega)
  constructor
  · rw [setSlot, h₂.size, h₁.size]
  · intro at' n hd
    rw [setSlot, h₂.read at' n (by omega), h₁.read at' n (by omega)]

theorem slotAt_setSlot (h : headerSize + i * slotSize + 4 ≤ p.bytes.length) (ho : off < 65536)
    (hl : len < 65536) : (p.setSlot i off len).slotAt i = (off, len) := by
  have hs := length_setU16At p (headerSize + i * slotSize) off (by omega)
  rw [slotAt, setSlot, u16At_apart (by omega) (by omega), u16At_setU16At (by omega) ho,
    u16At_setU16At (by omega) hl]

/-- The slots lie between the header and the payloads. -/
structure Framed (p : PageImage) : Prop where
  size : p.bytes.length = pageSize
  slots_le : headerSize + p.slotCount * slotSize ≤ p.freeEnd
  freeEnd_le : p.freeEnd ≤ pageSize

theorem freeSpace_eq (p : PageImage) :
    p.freeSpace = p.freeEnd - (headerSize + p.slotCount * slotSize) := rfl

/-- The bytes a copy to the lower end of the payloads leaves. -/
structure Copied (p q : PageImage) (payload : Bytes) : Prop where
  size : q.bytes.length = pageSize
  slotCount : q.slotCount = p.slotCount
  freeEnd : q.freeEnd = p.freeEnd - payload.length
  lsn : q.lsn = p.lsn
  slotAt : ∀ i < p.slotCount, q.slotAt i = p.slotAt i
  fresh : q.read (p.freeEnd - payload.length) payload.length = payload
  old : ∀ at' n, p.freeEnd ≤ at' → q.read at' n = p.read at' n

theorem copyDown_copied (h : p.Framed) (payload : Bytes) (hfit : payload.length ≤ p.freeSpace) :
    Copied p (p.copyDown payload) payload := by
  have hs := h.size
  have hslots := h.slots_le
  have hend := h.freeEnd_le
  rw [freeSpace_eq] at hfit
  simp only [headerSize, slotSize, pageSize] at *
  have h₁ := Same.write p (p.freeEnd - payload.length) payload (by omega)
  have h₂ := Same.setU16At (p.write (p.freeEnd - payload.length) payload) 14
    (p.freeEnd - payload.length) (by rw [h₁.size]; omega)
  constructor
  · rw [copyDown, setFreeEnd, h₂.size, h₁.size, hs]
    rfl
  · rw [copyDown, setFreeEnd, PageImage.slotCount, h₂.u16At (by omega), h₁.u16At (by omega)]
    rfl
  · exact u16At_setU16At (by rw [h₁.size]; omega) (by omega)
  · rw [copyDown, setFreeEnd, PageImage.lsn, h₂.read _ _ (by omega), h₁.read _ _ (by omega)]
    rfl
  · intro i hi
    rw [copyDown, setFreeEnd, h₂.slotAt (by simp only [headerSize, slotSize]; omega),
      h₁.slotAt (by simp only [headerSize, slotSize]; omega)]
  · rw [copyDown, setFreeEnd, h₂.read _ _ (by omega)]
    exact read_write_same _ _ _ (by omega)
  · intro at' n ha
    rw [copyDown, setFreeEnd, h₂.read _ _ (by omega), h₁.read _ _ (by omega)]

/-- The bytes placing a payload in slot `i`, old or next, leaves. -/
structure Placed (p q : PageImage) (i : ℕ) (payload : Bytes) : Prop where
  size : q.bytes.length = pageSize
  slotCount : q.slotCount = max p.slotCount (i + 1)
  freeEnd : q.freeEnd = p.freeEnd - payload.length
  lsn : q.lsn = p.lsn
  slotAt_same : q.slotAt i = (p.freeEnd - payload.length, payload.length)
  slotAt_other : ∀ j < p.slotCount, j ≠ i → q.slotAt j = p.slotAt j
  fresh : q.read (p.freeEnd - payload.length) payload.length = payload
  old : ∀ at' n, p.freeEnd ≤ at' → q.read at' n = p.read at' n

theorem placed_reused (h : p.Framed) (hi : i < p.slotCount) (hfit : payload.length ≤ p.freeSpace) :
    Placed p ((p.copyDown payload).setSlot i (p.freeEnd - payload.length) payload.length)
      i payload := by
  have hc := copyDown_copied h payload hfit
  have hslots := h.slots_le
  have hend := h.freeEnd_le
  have hs := hc.size
  rw [freeSpace_eq] at hfit
  simp only [headerSize, slotSize, pageSize] at hslots hend hfit hs
  have hsame := setSlot_same (p.copyDown payload) i (p.freeEnd - payload.length) payload.length
    (by simp only [headerSize, slotSize]; omega)
  simp only [headerSize, slotSize] at hsame
  constructor
  · rw [hsame.size, hc.size]
  · rw [PageImage.slotCount, hsame.u16At (by omega)]
    exact hc.slotCount.trans (by omega)
  · rw [PageImage.freeEnd, hsame.u16At (by omega)]
    exact hc.freeEnd
  · rw [PageImage.lsn, hsame.read _ _ (by omega)]
    exact hc.lsn
  · apply slotAt_setSlot
    · simp only [headerSize, slotSize]
      omega
    · omega
    · omega
  · intro j hj hne
    rw [hsame.slotAt (by simp only [headerSize, slotSize]; omega), hc.slotAt j hj]
  · rw [hsame.read _ _ (by omega), hc.fresh]
  · intro at' n ha
    rw [hsame.read _ _ (by omega), hc.old at' n ha]

theorem placed_new (h : p.Framed) (hfit : payload.length + slotSize ≤ p.freeSpace) :
    Placed p (((p.copyDown payload).setSlotCount (p.slotCount + 1)).setSlot p.slotCount
      (p.freeEnd - payload.length) payload.length) p.slotCount payload := by
  have hc := copyDown_copied h payload (by omega)
  have hslots := h.slots_le
  have hend := h.freeEnd_le
  have hs := hc.size
  rw [freeSpace_eq] at hfit
  simp only [headerSize, slotSize, pageSize] at hslots hend hfit hs
  have hcount := Same.setU16At (p.copyDown payload) 12 (p.slotCount + 1)
    (by omega)
  have hcs := hcount.size
  have hsame := setSlot_same ((p.copyDown payload).setSlotCount (p.slotCount + 1)) p.slotCount
    (p.freeEnd - payload.length) payload.length
    (by simp only [headerSize, slotSize, setSlotCount]; omega)
  simp only [headerSize, slotSize, setSlotCount] at hsame
  simp only [setSlotCount]
  constructor
  · rw [hsame.size, hcount.size, hc.size]
  · rw [PageImage.slotCount, hsame.u16At (by omega), u16At_setU16At (by omega) (by omega)]
    omega
  · rw [PageImage.freeEnd, hsame.u16At (by omega), hcount.u16At (by omega)]
    exact hc.freeEnd
  · rw [PageImage.lsn, hsame.read _ _ (by omega), hcount.read _ _ (by omega)]
    exact hc.lsn
  · apply slotAt_setSlot
    · simp only [headerSize, slotSize]
      omega
    · omega
    · omega
  · intro j hj hne
    rw [hsame.slotAt (by simp only [headerSize, slotSize]; omega),
      hcount.slotAt (by simp only [headerSize, slotSize]; omega), hc.slotAt j hj]
  · rw [hsame.read _ _ (by omega), hcount.read _ _ (by omega), hc.fresh]
  · intro at' n ha
    rw [hsame.read _ _ (by omega), hcount.read _ _ (by omega), hc.old at' n ha]

/-! ## The map and the invariant -/

def payloadAt (p : PageImage) (i : ℕ) : Option Bytes :=
  if i < p.slotCount ∧ p.isLive i then some (p.read (p.slotAt i).1 (p.slotAt i).2) else none

/-- What the slots hold, dead ones nothing. -/
def contents (p : PageImage) : List (Option Bytes) := (List.range p.slotCount).map p.payloadAt

def Live (p : PageImage) (i : ℕ) : Prop := i < p.slotCount ∧ (p.slotAt i).1 ≠ 0

/-- Where the payload of a slot ends. -/
def regionEnd (p : PageImage) (i : ℕ) : ℕ := (p.slotAt i).1 + (p.slotAt i).2

structure Valid (p : PageImage) : Prop where
  framed : p.Framed
  inside : ∀ i, p.Live i → p.freeEnd ≤ (p.slotAt i).1 ∧ p.regionEnd i ≤ pageSize
  apart : ∀ i j, i ≠ j → p.Live i → p.Live j →
    p.regionEnd i ≤ (p.slotAt j).1 ∨ p.regionEnd j ≤ (p.slotAt i).1
  packed : p.freeEnd + liveBytes p.contents ≤ pageSize

theorem isLive_iff : p.isLive i ↔ (p.slotAt i).1 ≠ 0 := decide_eq_true_iff

theorem payload_of_live (h : p.Live i) :
    p.payloadAt i = some (p.read (p.slotAt i).1 (p.slotAt i).2) := if_pos ⟨h.1, isLive_iff.mpr h.2⟩

theorem payload_of_not_live (h : ¬ p.Live i) : p.payloadAt i = none :=
  if_neg fun hl => h ⟨hl.1, isLive_iff.mp hl.2⟩

theorem payload_isSome : (p.payloadAt i).isSome ↔ p.Live i := by
  by_cases h : p.Live i
  · simp [payload_of_live h, h]
  · simp [payload_of_not_live h, h]

@[simp] theorem length_contents (p : PageImage) : p.contents.length = p.slotCount := by
  simp [contents]

theorem getElem?_contents (p : PageImage) (i : ℕ) :
    p.contents[i]? = if i < p.slotCount then some (p.payloadAt i) else none := by
  by_cases h : i < p.slotCount
  · rw [if_pos h, contents, List.getElem?_map, List.getElem?_range h]
    rfl
  · rw [if_neg h, List.getElem?_eq_none (by rw [length_contents]; omega)]

theorem length_payload (h : p.Valid) {b : Bytes} (hb : p.payloadAt i = some b) :
    b.length = (p.slotAt i).2 := by
  have hl : p.Live i := payload_isSome.mp (by rw [hb]; rfl)
  have hin := (h.inside i hl).2
  rw [payload_of_live hl] at hb
  rw [← Option.some.inj hb]
  exact length_slice (by rw [h.framed.size]; exact hin)

section Placed

/-- The part of the room a placed payload needs, with the slot if it is new. -/
def Fits (p : PageImage) (i : ℕ) (payload : Bytes) : Prop :=
  headerSize + max p.slotCount (i + 1) * slotSize + payload.length ≤ p.freeEnd ∧ i ≤ p.slotCount

theorem Placed.framed (h : Placed p q i xs) (hp : p.Framed) (hfit : p.Fits i xs) : q.Framed := by
  have hend := hp.freeEnd_le
  have h₁ := hfit.1
  constructor
  · exact h.size
  · rw [h.slotCount, h.freeEnd]
    omega
  · rw [h.freeEnd]
    omega

theorem Placed.live (h : Placed p q i xs) (hfit : p.Fits i xs) (j : ℕ) :
    q.Live j ↔ j = i ∨ p.Live j := by
  have hi := hfit.2
  have hoff : p.freeEnd - xs.length ≠ 0 := by
    have h₁ := hfit.1
    simp only [headerSize, slotSize] at h₁
    omega
  unfold Live
  rw [h.slotCount]
  by_cases hj : j = i
  · subst hj
    rw [h.slotAt_same]
    constructor
    · intro _
      exact .inl rfl
    · intro _
      exact ⟨by omega, hoff⟩
  · constructor
    · rintro ⟨hlt, hl⟩
      rw [h.slotAt_other j (by omega) hj] at hl
      exact .inr ⟨by omega, hl⟩
    · rintro (h' | ⟨hlt, hl⟩)
      · exact absurd h' hj
      · rw [h.slotAt_other j hlt hj]
        exact ⟨by omega, hl⟩

theorem Placed.payloadAt (h : Placed p q i xs) (hp : p.Valid) (hfit : p.Fits i xs) (j : ℕ) :
    q.payloadAt j = if j = i then some xs else p.payloadAt j := by
  by_cases hj : j = i
  · subst hj
    rw [if_pos rfl, payload_of_live ((h.live hfit j).mpr (.inl rfl)), h.slotAt_same, h.fresh]
  · rw [if_neg hj]
    by_cases hl : p.Live j
    · rw [payload_of_live hl, payload_of_live ((h.live hfit j).mpr (.inr hl)),
        h.slotAt_other j hl.1 hj, h.old _ _ (hp.inside j hl).1]
    · have hq : ¬ q.Live j := fun hq => ((h.live hfit j).mp hq).elim hj hl
      rw [payload_of_not_live hl, payload_of_not_live hq]

theorem Placed.contents (h : Placed p q i xs) (hp : p.Valid) (hfit : p.Fits i xs) :
    q.contents = if i < p.slotCount then p.contents.set i (some xs) else p.contents ++ [some xs] := by
  have hi := hfit.2
  apply List.ext_getElem?
  intro j
  rw [getElem?_contents, h.slotCount, h.payloadAt hp hfit]
  by_cases hlt : i < p.slotCount
  · rw [if_pos hlt, List.getElem?_set, length_contents, getElem?_contents,
      show max p.slotCount (i + 1) = p.slotCount by omega]
    by_cases hj : i = j
    · subst hj
      simp [hlt]
    · rw [if_neg hj, if_neg (Ne.symm hj)]
  · have he : i = p.slotCount := by omega
    rw [if_neg hlt, List.getElem?_append, length_contents, getElem?_contents,
      show max p.slotCount (i + 1) = p.slotCount + 1 by omega]
    by_cases hj : j < p.slotCount
    · rw [if_pos hj, if_pos (by omega), if_neg (by omega), if_pos hj]
    · rw [if_neg hj]
      by_cases hje : j = p.slotCount
      · simp [hje, he]
      · rw [if_neg (by omega), List.getElem?_eq_none (by simp; omega)]

/-- Placing a payload keeps the invariant, the slot holding one before or not. -/
theorem Placed.valid (h : Placed p q i xs) (hp : p.Valid) (hfit : p.Fits i xs) : q.Valid := by
  have hend := hp.framed.freeEnd_le
  have hroom := hfit.1
  constructor
  · exact h.framed hp.framed hfit
  · intro j hj
    rw [h.freeEnd, regionEnd]
    by_cases he : j = i
    · rw [he, h.slotAt_same]
      constructor <;> dsimp only <;> omega
    · have hl := ((h.live hfit j).mp hj).resolve_left he
      have hin := hp.inside j hl
      rw [regionEnd] at hin
      rw [h.slotAt_other j hl.1 he]
      omega
  · intro j k hne hj hk
    rw [regionEnd, regionEnd]
    by_cases hji : j = i
    · have hki : k ≠ i := fun hki => hne (hji.trans hki.symm)
      have hl := ((h.live hfit k).mp hk).resolve_left hki
      have hin := (hp.inside k hl).1
      rw [hji, h.slotAt_same, h.slotAt_other k hl.1 hki]
      left
      dsimp only
      omega
    · have hl := ((h.live hfit j).mp hj).resolve_left hji
      have hin := (hp.inside j hl).1
      rw [h.slotAt_other j hl.1 hji]
      by_cases hki : k = i
      · rw [hki, h.slotAt_same]
        right
        dsimp only
        omega
      · have hlk := ((h.live hfit k).mp hk).resolve_left hki
        rw [h.slotAt_other k hlk.1 hki]
        exact hp.apart j k hne hl hlk
  · have hpack := hp.packed
    rw [h.freeEnd, h.contents hp hfit]
    by_cases hlt : i < p.slotCount
    · rw [if_pos hlt]
      have := liveBytes_set_some_le p.contents i xs
      omega
    · rw [if_neg hlt, liveBytes_append]
      simp only [liveBytes]
      omega

end Placed

/-! ## A payload that shrinks or dies -/

/-- The bytes replacing the payload of slot `i` by one no longer leaves. -/
structure Shrunk (p q : PageImage) (i : ℕ) (xs : Bytes) : Prop where
  size : q.bytes.length = p.bytes.length
  slotCount : q.slotCount = p.slotCount
  freeEnd : q.freeEnd = p.freeEnd
  lsn : q.lsn = p.lsn
  slotAt_same : q.slotAt i = ((p.slotAt i).1, xs.length)
  slotAt_other : ∀ j < p.slotCount, j ≠ i → q.slotAt j = p.slotAt j
  fresh : q.read (p.slotAt i).1 xs.length = xs
  old : ∀ at' n, p.freeEnd ≤ at' → at' + n ≤ (p.slotAt i).1 ∨ (p.slotAt i).1 + xs.length ≤ at' →
    q.read at' n = p.read at' n

/-- The bytes marking slot `i` dead leaves. -/
structure Killed (p q : PageImage) (i : ℕ) : Prop where
  size : q.bytes.length = p.bytes.length
  slotCount : q.slotCount = p.slotCount
  freeEnd : q.freeEnd = p.freeEnd
  lsn : q.lsn = p.lsn
  slotAt_same : q.slotAt i = (0, 0)
  slotAt_other : ∀ j < p.slotCount, j ≠ i → q.slotAt j = p.slotAt j
  old : ∀ at' n, p.freeEnd ≤ at' → q.read at' n = p.read at' n

theorem liveBytes_set_shrink {cs : List (Option Bytes)} {b : Bytes} (h : cs[i]? = some (some b))
    (b' : Bytes) (hl : b'.length ≤ b.length) : liveBytes (cs.set i (some b')) ≤ liveBytes cs := by
  induction cs generalizing i with
  | nil => simp at h
  | cons c cs ih =>
    cases i with
    | zero =>
      rw [List.getElem?_cons_zero, Option.some.injEq] at h
      subst h
      simp only [List.set_cons_zero, liveBytes]
      omega
    | succ i =>
      rw [List.getElem?_cons_succ] at h
      have := ih h
      cases c <;> simp only [List.set_cons_succ, liveBytes] <;> omega

theorem shrunk_update (hp : p.Valid) (hl : p.Live i) (hfit : xs.length ≤ (p.slotAt i).2) :
    Shrunk p ((p.write (p.slotAt i).1 xs).setSlot i (p.slotAt i).1 xs.length) i xs := by
  have hin := hp.inside i hl
  have hs := hp.framed.size
  have hslots := hp.framed.slots_le
  have hi := hl.1
  rw [regionEnd] at hin
  simp only [headerSize, slotSize, pageSize] at hin hs hslots
  have h₁ := Same.write p (p.slotAt i).1 xs (by omega)
  have hsz := h₁.size
  have h₂ := setSlot_same (p.write (p.slotAt i).1 xs) i (p.slotAt i).1 xs.length
    (by simp only [headerSize, slotSize]; omega)
  simp only [headerSize, slotSize] at h₂
  constructor
  · rw [h₂.size, h₁.size]
  · rw [PageImage.slotCount, h₂.u16At (by omega), h₁.u16At (by omega)]
    rfl
  · rw [PageImage.freeEnd, h₂.u16At (by omega), h₁.u16At (by omega)]
    rfl
  · rw [PageImage.lsn, h₂.read _ _ (by omega), h₁.read _ _ (by omega)]
    rfl
  · apply slotAt_setSlot
    · simp only [headerSize, slotSize]
      omega
    · omega
    · omega
  · intro j hj hne
    rw [h₂.slotAt (by simp only [headerSize, slotSize]; omega),
      h₁.slotAt (by simp only [headerSize, slotSize]; omega)]
  · rw [h₂.read _ _ (by omega)]
    exact read_write_same _ _ _ (by omega)
  · intro at' n ha hd
    rw [h₂.read _ _ (by omega), h₁.read _ _ hd]

theorem killed_delete (hp : p.Framed) (hi : i < p.slotCount) : Killed p (p.setSlot i 0 0) i := by
  have hs := hp.size
  have hslots := hp.slots_le
  have hend := hp.freeEnd_le
  simp only [headerSize, slotSize, pageSize] at hs hslots hend
  have h := setSlot_same p i 0 0
    (by simp only [headerSize, slotSize]; omega)
  simp only [headerSize, slotSize] at h
  constructor
  · exact h.size
  · exact h.u16At (by omega)
  · exact h.u16At (by omega)
  · rw [PageImage.lsn, h.read _ _ (by omega)]
    rfl
  · apply slotAt_setSlot
    · simp only [headerSize, slotSize]
      omega
    · decide
    · decide
  · intro j hj hne
    exact h.slotAt (by simp only [headerSize, slotSize]; omega)
  · intro at' n ha
    exact h.read _ _ (by omega)

theorem Shrunk.live (h : Shrunk p q i xs) (j : ℕ) : q.Live j ↔ p.Live j := by
  unfold Live
  rw [h.slotCount]
  by_cases hj : j = i
  · rw [hj, h.slotAt_same]
  · exact and_congr_right fun hlt => by rw [h.slotAt_other j hlt hj]

theorem Killed.live (h : Killed p q i) (j : ℕ) : q.Live j ↔ j ≠ i ∧ p.Live j := by
  unfold Live
  rw [h.slotCount]
  by_cases hj : j = i
  · rw [hj, h.slotAt_same]
    simp
  · constructor
    · rintro ⟨hlt, hl⟩
      exact ⟨hj, hlt, h.slotAt_other j hlt hj ▸ hl⟩
    · rintro ⟨-, hlt, hl⟩
      exact ⟨hlt, (h.slotAt_other j hlt hj).symm ▸ hl⟩

theorem Shrunk.payloadAt (h : Shrunk p q i xs) (hp : p.Valid) (hl : p.Live i)
    (hfit : xs.length ≤ (p.slotAt i).2) (j : ℕ) :
    q.payloadAt j = if j = i then some xs else p.payloadAt j := by
  by_cases hj : j = i
  · subst hj
    rw [if_pos rfl, payload_of_live ((h.live j).mpr hl), h.slotAt_same, h.fresh]
  · rw [if_neg hj]
    by_cases hlj : p.Live j
    · have ha := hp.apart j i hj hlj hl
      rw [regionEnd, regionEnd] at ha
      rw [payload_of_live hlj, payload_of_live ((h.live j).mpr hlj), h.slotAt_other j hlj.1 hj,
        h.old _ _ (hp.inside j hlj).1 (by omega)]
    · rw [payload_of_not_live hlj, payload_of_not_live ((h.live j).not.mpr hlj)]

theorem Killed.payloadAt (h : Killed p q i) (hp : p.Valid) (j : ℕ) :
    q.payloadAt j = if j = i then none else p.payloadAt j := by
  by_cases hj : j = i
  · rw [if_pos hj, payload_of_not_live fun hl => ((h.live j).mp hl).1 hj]
  · rw [if_neg hj]
    by_cases hl : p.Live j
    · rw [payload_of_live hl, payload_of_live ((h.live j).mpr ⟨hj, hl⟩),
        h.slotAt_other j hl.1 hj, h.old _ _ (hp.inside j hl).1]
    · rw [payload_of_not_live hl, payload_of_not_live fun hq => hl ((h.live j).mp hq).2]

theorem contents_set {o : Option Bytes} (hc : q.slotCount = p.slotCount)
    (h : ∀ j, q.payloadAt j = if j = i then o else p.payloadAt j) :
    q.contents = p.contents.set i o := by
  apply List.ext_getElem?
  intro j
  rw [getElem?_contents, hc, h, List.getElem?_set, length_contents, getElem?_contents]
  by_cases hj : i = j
  · subst hj
    simp
  · rw [if_neg hj, if_neg (Ne.symm hj)]

theorem Shrunk.valid (h : Shrunk p q i xs) (hp : p.Valid) (hl : p.Live i)
    (hfit : xs.length ≤ (p.slotAt i).2) : q.Valid := by
  have hoff : ∀ j, p.Live j → (q.slotAt j).1 = (p.slotAt j).1 ∧ q.regionEnd j ≤ p.regionEnd j := by
    intro j hj
    rw [regionEnd, regionEnd]
    by_cases hji : j = i
    · rw [hji, h.slotAt_same]
      exact ⟨rfl, Nat.add_le_add_left hfit _⟩
    · rw [h.slotAt_other j hj.1 hji]
      exact ⟨rfl, le_rfl⟩
  constructor
  · constructor
    · rw [h.size, hp.framed.size]
    · rw [h.slotCount, h.freeEnd]
      exact hp.framed.slots_le
    · rw [h.freeEnd]
      exact hp.framed.freeEnd_le
  · intro j hj
    rw [h.live] at hj
    have hin := hp.inside j hj
    rw [h.freeEnd, (hoff j hj).1]
    exact ⟨hin.1, (hoff j hj).2.trans hin.2⟩
  · intro j k hne hj hk
    rw [h.live] at hj hk
    rw [(hoff j hj).1, (hoff k hk).1]
    exact (hp.apart j k hne hj hk).imp (hoff j hj).2.trans (hoff k hk).2.trans
  · have hpack := hp.packed
    have hget : p.contents[i]? = some (some (p.read (p.slotAt i).1 (p.slotAt i).2)) := by
      rw [getElem?_contents, if_pos hl.1, payload_of_live hl]
    have hlen := length_payload hp (payload_of_live hl)
    have hle := liveBytes_set_shrink hget xs (by omega)
    rw [h.freeEnd, contents_set h.slotCount (h.payloadAt hp hl hfit)]
    omega

theorem Killed.valid (h : Killed p q i) (hp : p.Valid) : q.Valid := by
  constructor
  · constructor
    · rw [h.size, hp.framed.size]
    · rw [h.slotCount, h.freeEnd]
      exact hp.framed.slots_le
    · rw [h.freeEnd]
      exact hp.framed.freeEnd_le
  · intro j hj
    obtain ⟨hne, hl⟩ := (h.live j).mp hj
    rw [h.freeEnd, regionEnd, h.slotAt_other j hl.1 hne]
    exact hp.inside j hl
  · intro j k hne hj hk
    obtain ⟨hji, hlj⟩ := (h.live j).mp hj
    obtain ⟨hki, hlk⟩ := (h.live k).mp hk
    rw [regionEnd, regionEnd, h.slotAt_other j hlj.1 hji, h.slotAt_other k hlk.1 hki]
    exact hp.apart j k hne hlj hlk
  · have hpack := hp.packed
    have hle := liveBytes_set_none_le p.contents i
    rw [h.freeEnd, contents_set h.slotCount (h.payloadAt hp)]
    omega

end Adabt.Storage.PageImage
