import Adabt.Storage.PageInvariant

/-! # The page as a finite map

Each call changes only its own slot of the map a page denotes, and nothing when
it fails, whatever calls came before. The bytes refine the slot array that the
heap works with, and a sealed page reads back as it was. -/

set_option autoImplicit false

namespace Adabt.Storage.PageImage
open Adabt.Core Adabt.Library

variable {p q : PageImage} {xs : Bytes} {i j : ℕ}

/-! ## What each call does -/

/-- How an operation may leave the page, as its result tells. -/
inductive Inserted (p : PageImage) (payload : Bytes) : PageImage × Except Error ℕ → Prop
  | failed (e : Error) : Inserted p payload (p, .error e)
  | stored (q : PageImage) (i : ℕ) (hplaced : Placed p q i payload) (hfit : p.Fits i payload)
      (hdead : ¬ p.Live i) : Inserted p payload (q, .ok i)

inductive Updated (p : PageImage) (slot : ℕ) (payload : Bytes) :
    PageImage × Except Error UpdateOutcome → Prop
  | failed (e : Error) : Updated p slot payload (p, .error e)
  | doesNotFit : Updated p slot payload (p, .ok .doesNotFit)
  | inPlace (q : PageImage) (hl : p.Live slot) (hfit : payload.length ≤ (p.slotAt slot).2)
      (hshrunk : Shrunk p q slot payload) : Updated p slot payload (q, .ok .inPlace)
  | moved (q : PageImage) (hl : p.Live slot) (hplaced : Placed p q slot payload)
      (hfit : p.Fits slot payload) : Updated p slot payload (q, .ok .moved)

inductive Deleted (p : PageImage) (slot : ℕ) : PageImage × Except Error Unit → Prop
  | failed (e : Error) : Deleted p slot (p, .error e)
  | killed (q : PageImage) (hl : p.Live slot) (hkilled : Killed p q slot) : Deleted p slot (q, .ok ())

theorem live_of_guard (h : ¬ (p.slotCount ≤ i ∨ (!p.isLive i) = true)) : p.Live i := by
  rw [not_or, Bool.not_eq_true', Bool.not_eq_false, isLive_iff] at h
  exact ⟨Nat.not_le.mp h.1, h.2⟩

theorem insert_spec (h : p.Framed) (payload : Bytes) : Inserted p payload (p.insert payload) := by
  unfold insert
  by_cases hempty : payload = []
  · rw [if_pos hempty]
    exact .failed _
  rw [if_neg hempty]
  by_cases hlong : maxPayload < payload.length
  · rw [if_pos hlong]
    exact .failed _
  rw [if_neg hlong]
  dsimp only
  have hslots := h.slots_le
  cases hreuse : (List.range p.slotCount).find? fun i => !p.isLive i with
  | some i =>
    simp only [Option.isNone_some, Bool.false_eq_true, if_false, Nat.add_zero]
    by_cases hfit : p.freeSpace < payload.length
    · rw [if_pos hfit]
      exact .failed _
    · rw [if_neg hfit]
      have hi : i < p.slotCount := List.mem_range.mp (List.mem_of_find?_eq_some hreuse)
      have hdead := List.find?_some hreuse
      apply Inserted.stored
      · exact placed_reused h hi (Nat.not_lt.mp hfit)
      · rw [freeSpace_eq] at hfit
        exact ⟨by rw [show max p.slotCount (i + 1) = p.slotCount by omega]; omega, hi.le⟩
      · intro hl
        rw [isLive_iff.mpr hl.2] at hdead
        exact absurd hdead (by simp)
  | none =>
    simp only [Option.isNone_none, if_true]
    by_cases hfit : p.freeSpace < payload.length + slotSize
    · rw [if_pos hfit]
      exact .failed _
    · rw [if_neg hfit]
      have hcount := (copyDown_copied h payload (by omega)).slotCount
      rw [hcount]
      apply Inserted.stored
      · exact placed_new h (Nat.not_lt.mp hfit)
      · rw [freeSpace_eq] at hfit
        constructor
        · rw [show max p.slotCount (p.slotCount + 1) = p.slotCount + 1 by omega, Nat.add_mul]
          omega
        · exact le_rfl
      · exact fun hl => absurd hl.1 (lt_irrefl _)

theorem update_spec (h : p.Valid) (slot : ℕ) (payload : Bytes) :
    Updated p slot payload (p.update slot payload) := by
  unfold update
  by_cases hdead : p.slotCount ≤ slot ∨ (!p.isLive slot) = true
  · rw [if_pos hdead]
    exact .failed _
  rw [if_neg hdead]
  have hl := live_of_guard hdead
  dsimp only
  by_cases hshort : payload.length ≤ (p.slotAt slot).2
  · rw [if_pos hshort]
    exact .inPlace _ hl hshort (shrunk_update h hl hshort)
  rw [if_neg hshort]
  by_cases hfit : payload.length ≤ p.freeSpace
  · rw [if_pos hfit]
    have hslots := h.framed.slots_le
    have hlt := hl.1
    apply Updated.moved _ hl (placed_reused h.framed hlt hfit)
    rw [freeSpace_eq] at hfit
    exact ⟨by rw [show max p.slotCount (slot + 1) = p.slotCount by omega]; omega, hlt.le⟩
  · rw [if_neg hfit]
    exact .doesNotFit

theorem delete_spec (h : p.Framed) (slot : ℕ) : Deleted p slot (p.delete slot) := by
  unfold delete
  by_cases hdead : p.slotCount ≤ slot ∨ (!p.isLive slot) = true
  · rw [if_pos hdead]
    exact .failed _
  · rw [if_neg hdead]
    have hl := live_of_guard hdead
    exact .killed _ hl (killed_delete h hl.1)

theorem get_eq_ok (h : p.Valid) {b : Bytes} : p.get i = .ok b ↔ p.payloadAt i = some b := by
  unfold get
  by_cases hi : p.slotCount ≤ i
  · rw [if_pos hi, payload_of_not_live fun hl => absurd hl.1 (Nat.not_lt.mpr hi)]
    simp
  rw [if_neg hi]
  dsimp only
  by_cases hoff : (p.slotAt i).1 = 0
  · rw [if_pos hoff, payload_of_not_live fun hl => hl.2 hoff]
    simp
  rw [if_neg hoff]
  have hl : p.Live i := ⟨Nat.not_le.mp hi, hoff⟩
  have hin := h.inside i hl
  have hslots := h.framed.slots_le
  rw [regionEnd] at hin
  rw [if_neg (by omega), payload_of_live hl]
  simp

/-! ## Empty pages -/

theorem u16At_zeros (p : PageImage) (m start at' : ℕ) (h : start + m ≤ p.bytes.length) (h₁ : start ≤ at')
    (h₂ : at' + 2 ≤ start + m) : (p.write start (List.replicate m 0)).u16At at' = 0 := by
  have hs := slice_splice_within p.bytes (List.replicate m (0 : UInt8)) start 2 (at' - start)
    (by rwa [List.length_replicate]) (by rw [List.length_replicate]; omega)
  rw [Nat.add_sub_cancel' h₁, slice_replicate 0 (by omega)] at hs
  rw [u16At, read, write, hs]
  rfl

/-- A page whose slots are all dead and whose payload room is all free. -/
structure Blank (p : PageImage) : Prop where
  size : p.bytes.length = pageSize
  slots_le : headerSize + p.slotCount * slotSize ≤ pageSize
  freeEnd : p.freeEnd = pageSize
  dead : ∀ i, ¬ p.Live i

theorem Blank.valid (h : p.Blank) : p.Valid := by
  constructor
  · constructor
    · exact h.size
    · rw [h.freeEnd]
      exact h.slots_le
    · rw [h.freeEnd]
  · exact fun i hi => absurd hi (h.dead i)
  · exact fun i _ _ hi => absurd hi (h.dead i)
  · have hz : ∀ l : List ℕ, liveBytes (l.map p.payloadAt) = 0 := by
      intro l
      induction l with
      | nil => rfl
      | cons i l ih => rw [List.map_cons, payload_of_not_live (h.dead i), liveBytes, ih]
    rw [h.freeEnd, contents, hz, Nat.add_zero]

theorem blank_new : Blank new := by
  have hcount : new.slotCount = 0 := by decide +kernel
  constructor
  · decide +kernel
  · rw [hcount]
    decide
  · decide +kernel
  · intro i hi
    exact absurd hi.1 (by rw [hcount]; omega)

theorem lsn_lt (h : p.bytes.length = pageSize) : p.lsn < 2 ^ 64 := by
  have hl := ofLeBytes_lt (p.read 4 8)
  have h8 : (p.read 4 8).length = 8 := length_slice (by rw [h]; decide)
  rw [h8] at hl
  exact hl

/-- The cleared page a compaction starts from. -/
def cleared (p : PageImage) (highest : ℕ) : PageImage :=
  (((p.write headerSize (List.replicate (pageSize - headerSize) 0)).setSlotCount
    highest).setFreeEnd pageSize).setLsn (UInt64.ofNat p.lsn)

theorem cleared_spec (h : p.bytes.length = pageSize) (highest : ℕ)
    (hh : headerSize + highest * slotSize ≤ pageSize) :
    Blank (p.cleared highest) ∧ (p.cleared highest).slotCount = highest ∧
      (p.cleared highest).lsn = p.lsn := by
  have hlsn := lsn_lt h
  simp only [headerSize, slotSize, pageSize] at h hh
  have h₀ := Same.write p headerSize (List.replicate (pageSize - headerSize) 0) (by
      rw [List.length_replicate, h]
      decide)
  have hz := fun at' => u16At_zeros p (pageSize - headerSize) headerSize at' (by rw [h]; decide)
  unfold cleared
  generalize p.write headerSize (List.replicate (pageSize - headerSize) 0) = p₀ at h₀ hz
  have hs₀ := h₀.size
  have h₁ := Same.setU16At p₀ 12 highest (by omega)
  have hs₁ := h₁.size
  have h₂ := Same.setU16At (p₀.setU16At 12 highest) 14 pageSize (by omega)
  have hs₂ := h₂.size
  have h₃ := Same.write ((p₀.setU16At 12 highest).setU16At 14 pageSize) 4
    (leBytes 8 (UInt64.ofNat p.lsn).toNat) (by rw [leBytes_length]; omega)
  have hs₃ := h₃.size
  rw [leBytes_length] at h₃
  simp only [setSlotCount, setFreeEnd, setLsn]
  have hcount : ((((p₀.setU16At 12 highest).setU16At 14 pageSize).write 4
      (leBytes 8 (UInt64.ofNat p.lsn).toNat))).slotCount = highest := by
    rw [slotCount, h₃.u16At (by omega), h₂.u16At (by omega), u16At_setU16At (by omega) (by omega)]
  constructor
  · constructor
    · rw [hs₃, hs₂, hs₁, hs₀, h]
      rfl
    · rw [hcount]
      simpa only [headerSize, slotSize, pageSize] using hh
    · rw [freeEnd, h₃.u16At (by omega), u16At_setU16At (by omega) (by decide)]
    · intro i hi
      apply hi.2
      have hlt := hi.1
      rw [hcount] at hlt
      simp only [headerSize, slotSize, pageSize] at hz
      rw [slotAt, h₃.u16At (by simp only [headerSize]; omega),
        h₂.u16At (by simp only [headerSize]; omega), h₁.u16At (by simp only [headerSize]; omega)]
      exact hz _ (by simp only [headerSize, slotSize]; omega) (by simp only [headerSize, slotSize]; omega)
  · constructor
    · exact hcount
    · have hr := read_write_same ((p₀.setU16At 12 highest).setU16At 14 pageSize) 4
        (leBytes 8 (UInt64.ofNat p.lsn).toNat) (by rw [leBytes_length]; omega)
      rw [leBytes_length] at hr
      rw [lsn, hr, UInt64.toNat_ofNat', Nat.mod_eq_of_lt hlsn, ofLeBytes_leBytes (by simpa using hlsn)]

/-! ## Compaction -/

def entryBytes (entries : List (ℕ × Bytes)) : ℕ := (entries.map (·.2.length)).sum

/-- Placing payloads one after another in dead slots. -/
theorem fold_place (entries : List (ℕ × Bytes)) (q : PageImage) (hq : q.Valid)
    (hslots : ∀ e ∈ entries, e.1 < q.slotCount) (hnodup : (entries.map (·.1)).Nodup)
    (hroom : headerSize + q.slotCount * slotSize + entryBytes entries ≤ q.freeEnd) :
    (entries.foldl place q).Valid ∧ (entries.foldl place q).slotCount = q.slotCount ∧
      (entries.foldl place q).lsn = q.lsn ∧
      (entries.foldl place q).freeEnd = q.freeEnd - entryBytes entries ∧
      ∀ j, (entries.foldl place q).payloadAt j = (entries.lookup j).or (q.payloadAt j) := by
  induction entries generalizing q with
  | nil => exact ⟨hq, rfl, rfl, (Nat.sub_zero _).symm, fun j => rfl⟩
  | cons e entries ih =>
    have hi : e.1 < q.slotCount := hslots e List.mem_cons_self
    rw [entryBytes, List.map_cons, List.sum_cons] at hroom
    change headerSize + q.slotCount * slotSize + (e.2.length + entryBytes entries) ≤ q.freeEnd
      at hroom
    have hplaced : Placed q (q.place e) e.1 e.2 :=
      placed_reused hq.framed hi (by rw [freeSpace_eq]; omega)
    have hcount : (q.place e).slotCount = q.slotCount := by
      rw [hplaced.slotCount]
      omega
    have hfit : q.Fits e.1 e.2 := ⟨by rw [show max q.slotCount (e.1 + 1) = q.slotCount by omega]; omega,
      hi.le⟩
    rw [List.map_cons, List.nodup_cons] at hnodup
    obtain ⟨hv, hc, hl, hf, hp⟩ := ih (q.place e) (hplaced.valid hq hfit)
      (fun e' he' => hcount ▸ hslots e' (List.mem_cons_of_mem e he')) hnodup.2
      (by rw [hcount, hplaced.freeEnd]; omega)
    rw [List.foldl_cons]
    refine ⟨hv, hc.trans hcount, hl.trans hplaced.lsn, ?_, ?_⟩
    · rw [hf, hplaced.freeEnd, entryBytes, entryBytes, List.map_cons, List.sum_cons, Nat.sub_sub]
    · intro j
      rw [hp, hplaced.payloadAt hq hfit, List.lookup_cons]
      by_cases hj : j = e.1
      · subst hj
        have hnone : entries.lookup e.1 = none := by
          rw [List.lookup_eq_none_iff]
          intro e' he'
          have hne : e.1 ≠ e'.1 := fun heq => hnodup.1 (List.mem_map.mpr ⟨e', he', heq.symm⟩)
          simpa using hne
        simp [hnone]
      · have hb : (j == e.1) = false := beq_false_of_ne hj
        rw [if_neg hj, hb]

/-- The entries of a partial map along a list of indices. -/
def entriesOf (f : ℕ → Option Bytes) (is : List ℕ) : List (ℕ × Bytes) :=
  is.filterMap fun i => (f i).map (i, ·)

theorem lookup_entriesOf (f : ℕ → Option Bytes) (is : List ℕ) (j : ℕ) :
    (entriesOf f is).lookup j = if j ∈ is then f j else none := by
  induction is with
  | nil => rfl
  | cons i is ih =>
    rw [entriesOf, List.filterMap_cons]
    cases hf : f i with
    | none =>
      change (entriesOf f is).lookup j = _
      rw [ih]
      by_cases hj : j = i
      · subst hj
        simp [hf]
      · simp [hj]
    | some b =>
      change ((i, b) :: entriesOf f is).lookup j = _
      rw [List.lookup_cons]
      by_cases hj : j = i
      · subst hj
        simp [hf]
      · have hb : (j == i) = false := beq_false_of_ne hj
        rw [hb, ih]
        simp [hj]

theorem keys_entriesOf (f : ℕ → Option Bytes) (is : List ℕ) :
    ((entriesOf f is).map (·.1)).Sublist is := by
  induction is with
  | nil => exact .slnil
  | cons i is ih =>
    rw [entriesOf, List.filterMap_cons]
    cases f i with
    | none => exact ih.cons i
    | some b => exact ih.cons_cons i

theorem entryBytes_entriesOf (f : ℕ → Option Bytes) (is : List ℕ) :
    entryBytes (entriesOf f is) = liveBytes (is.map f) := by
  induction is with
  | nil => rfl
  | cons i is ih =>
    rw [entriesOf, List.filterMap_cons, List.map_cons]
    cases f i with
    | none => exact ih
    | some b => exact congrArg (b.length + ·) ih

theorem livePayloads_eq (h : p.Valid) :
    p.livePayloads = entriesOf p.payloadAt (List.range p.slotCount) := by
  apply List.filterMap_congr
  intro i hi
  cases hp : p.payloadAt i with
  | none =>
    have hl : ¬ p.isLive i := fun hl =>
      by simpa [hp] using payload_isSome.mpr ⟨List.mem_range.mp hi, isLive_iff.mp hl⟩
    rw [if_neg hl]
    rfl
  | some b =>
    have hl : p.Live i := payload_isSome.mp (by rw [hp]; rfl)
    rw [if_pos (isLive_iff.mpr hl.2), (get_eq_ok h).mpr hp]
    rfl

theorem le_foldl_max (xs : List ℕ) (m : ℕ) : m ≤ xs.foldl max m ∧ ∀ x ∈ xs, x ≤ xs.foldl max m := by
  induction xs generalizing m with
  | nil => simp
  | cons x xs ih =>
    obtain ⟨hm, hx⟩ := ih (max m x)
    rw [List.foldl_cons]
    constructor
    · omega
    · intro y hy
      rcases List.mem_cons.mp hy with rfl | hy
      · omega
      · exact hx y hy

theorem foldl_max_le {xs : List ℕ} {m b : ℕ} (hm : m ≤ b) (h : ∀ x ∈ xs, x ≤ b) :
    xs.foldl max m ≤ b := by
  induction xs generalizing m with
  | nil => exact hm
  | cons x xs ih =>
    have hx := h x List.mem_cons_self
    exact ih (by omega) fun y hy => h y (List.mem_cons_of_mem x hy)

/-- The slot count compaction keeps: one past the highest live slot. -/
def highestLive (p : PageImage) : ℕ := (p.livePayloads.map (·.1 + 1)).foldl max 0

theorem compact_eq (p : PageImage) :
    p.compact = p.livePayloads.foldl place (p.cleared p.highestLive) := rfl

/-- Compaction keeps the map and the LSN. -/
theorem compact_spec (h : p.Valid) :
    p.compact.Valid ∧ p.compact.lsn = p.lsn ∧ p.compact.slotCount = p.highestLive ∧
      p.compact.freeEnd = pageSize - liveBytes p.contents ∧
      ∀ j, p.compact.payloadAt j = p.payloadAt j := by
  have hlive := livePayloads_eq h
  have hkeys : ∀ e ∈ p.livePayloads, e.1 < p.slotCount := by
    intro e he
    rw [hlive] at he
    exact List.mem_range.mp ((keys_entriesOf _ _).subset (List.mem_map_of_mem he))
  have hbytes : entryBytes p.livePayloads = liveBytes p.contents := by
    rw [hlive, entryBytes_entriesOf, contents]
  have hhigh : p.highestLive ≤ p.slotCount := by
    apply foldl_max_le (Nat.zero_le _)
    intro x hx
    obtain ⟨e, he, rfl⟩ := List.mem_map.mp hx
    exact hkeys e he
  have hslots := h.framed.slots_le
  have hpack := h.packed
  have hmul := Nat.mul_le_mul_right slotSize hhigh
  obtain ⟨hblank, hcount, hlsn⟩ := cleared_spec h.framed.size p.highestLive (by omega)
  obtain ⟨hv, hc, hl, hf, hp⟩ := fold_place p.livePayloads (p.cleared p.highestLive) hblank.valid
    (by
      intro e he
      rw [hcount]
      exact (le_foldl_max _ 0).2 _ (List.mem_map_of_mem he))
    (by
      rw [hlive]
      exact (keys_entriesOf _ _).nodup List.nodup_range)
    (by
      rw [hcount, hblank.freeEnd, hbytes]
      omega)
  rw [compact_eq]
  refine ⟨hv, hl.trans hlsn, hc.trans hcount, ?_, ?_⟩
  · rw [hf, hblank.freeEnd, hbytes]
  · intro j
    rw [hp, payload_of_not_live (hblank.dead j), Option.or_none, hlive, lookup_entriesOf]
    by_cases hj : j ∈ List.range p.slotCount
    · rw [if_pos hj]
    · rw [if_neg hj, payload_of_not_live fun hl => hj (List.mem_range.mpr hl.1)]

/-! ## Sealing -/

theorem sealPage_same (h : p.bytes.length = pageSize) : Same 0 4 p p.sealPage :=
  Same.write p 0 (leBytes 4 (computeChecksum p.bytes).toNat)
    (by rw [leBytes_length, h]; decide)

theorem drop_sealPage (p : PageImage) : p.sealPage.bytes.drop 4 = p.bytes.drop 4 := by
  have hl := leBytes_length 4 (computeChecksum p.bytes).toNat
  have hb : p.sealPage.bytes = leBytes 4 (computeChecksum p.bytes).toNat ++ p.bytes.drop 4 := by
    rw [sealPage, write, splice, hl]
    rfl
  rw [hb]
  exact List.drop_left' hl

theorem checksum_sealPage (p : PageImage) :
    computeChecksum p.sealPage.bytes = computeChecksum p.bytes := by
  rw [computeChecksum, computeChecksum, drop_sealPage]

theorem fromBytes_sealPage (h : p.Framed) : fromBytes p.sealPage.bytes = .ok p.sealPage := by
  have hsame := sealPage_same h.size
  have hcount : p.sealPage.slotCount = p.slotCount := hsame.u16At (by omega)
  have hend : p.sealPage.freeEnd = p.freeEnd := hsame.u16At (by omega)
  have hstored : slice p.sealPage.bytes 0 4 = leBytes 4 (computeChecksum p.bytes).toNat := by
    have hr := read_write_same p 0 (leBytes 4 (computeChecksum p.bytes).toNat)
      (by rw [leBytes_length, h.size]; decide)
    rwa [leBytes_length] at hr
  have hslots := h.slots_le
  have hle := h.freeEnd_le
  unfold fromBytes
  rw [hstored, ofLeBytes_leBytes (computeChecksum p.bytes).toNat_lt, UInt32.ofNat_toNat,
    checksum_sealPage]
  dsimp only
  rw [if_neg (by simp), hcount, hend, if_neg (by omega), if_neg (by omega)]

theorem sealPage_spec (h : p.Valid) :
    (∀ i, p.sealPage.payloadAt i = p.payloadAt i) ∧ p.sealPage.lsn = p.lsn := by
  have hsame := sealPage_same h.framed.size
  have hcount : p.sealPage.slotCount = p.slotCount := hsame.u16At (by omega)
  have hslot : ∀ i, p.sealPage.slotAt i = p.slotAt i := fun i => hsame.slotAt (by
    simp only [headerSize]
    omega)
  have hslots := h.framed.slots_le
  constructor
  · intro i
    by_cases hl : p.Live i
    · have hl' : p.sealPage.Live i := by rwa [Live, hcount, hslot]
      have hin := (h.inside i hl).1
      simp only [headerSize] at hslots
      rw [payload_of_live hl, payload_of_live hl', hslot, hsame.read _ _ (by omega)]
    · have hl' : ¬ p.sealPage.Live i := by rwa [Live, hcount, hslot]
      rw [payload_of_not_live hl, payload_of_not_live hl']
  · rw [lsn, hsame.read _ _ (by omega), ← lsn]

/-! ## Runs -/

/-- A call on a page, the stamp of an LSN among them. -/
inductive Call where
  | insert (payload : Bytes)
  | update (slot : ℕ) (payload : Bytes)
  | delete (slot : ℕ)
  | compact
  | setLsn (lsn : UInt64)

def Call.apply (p : PageImage) : Call → PageImage
  | insert payload => (p.insert payload).1
  | update slot payload => (p.update slot payload).1
  | delete slot => (p.delete slot).1
  | compact => p.compact
  | setLsn lsn => p.setLsn lsn

def run (calls : List Call) : PageImage := calls.foldl Call.apply new

theorem setLsn_spec (h : p.Valid) (lsn : UInt64) :
    (p.setLsn lsn).Valid ∧ (∀ i, (p.setLsn lsn).payloadAt i = p.payloadAt i) ∧
      (p.setLsn lsn).lsn = lsn.toNat := by
  have hsame := Same.write p 4 (leBytes 8 lsn.toNat) (by
    rw [leBytes_length, h.framed.size]
    decide)
  have hr := read_write_same p 4 (leBytes 8 lsn.toNat) (by
    rw [leBytes_length, h.framed.size]
    decide)
  rw [leBytes_length] at hsame hr
  have hcount : (p.setLsn lsn).slotCount = p.slotCount := hsame.u16At (by omega)
  have hend : (p.setLsn lsn).freeEnd = p.freeEnd := hsame.u16At (by omega)
  have hslot : ∀ i, (p.setLsn lsn).slotAt i = p.slotAt i := fun i => hsame.slotAt (by
    simp only [headerSize]
    omega)
  have hlive : ∀ i, (p.setLsn lsn).Live i ↔ p.Live i := fun i => by rw [Live, Live, hcount, hslot]
  have hslots := h.framed.slots_le
  have hp : ∀ i, (p.setLsn lsn).payloadAt i = p.payloadAt i := by
    intro i
    by_cases hl : p.Live i
    · have hin := (h.inside i hl).1
      simp only [headerSize] at hslots
      rw [payload_of_live hl, payload_of_live ((hlive i).mpr hl), hslot]
      exact congrArg some (hsame.read _ _ (by omega))
    · rw [payload_of_not_live hl, payload_of_not_live ((hlive i).not.mpr hl)]
  have hcontents : (p.setLsn lsn).contents = p.contents := by
    rw [contents, contents, hcount]
    exact List.map_congr_left fun i _ => hp i
  refine ⟨?_, hp, ?_⟩
  · constructor
    · exact ⟨hsame.size.trans h.framed.size, by rw [hcount, hend]; exact hslots,
        by rw [hend]; exact h.framed.freeEnd_le⟩
    · intro i hi
      rw [hend, regionEnd, hslot]
      exact h.inside i ((hlive i).mp hi)
    · intro i j hne hi hj
      rw [regionEnd, regionEnd, hslot, hslot]
      exact h.apart i j hne ((hlive i).mp hi) ((hlive j).mp hj)
    · rw [hend, hcontents]
      exact h.packed
  · have he : (p.setLsn lsn).lsn = ofLeBytes (leBytes 8 lsn.toNat) := congrArg ofLeBytes hr
    rw [he, ofLeBytes_leBytes lsn.toNat_lt]

/-- The map holds `o` at `i` and elsewhere what it held. -/
def SetAt (p q : PageImage) (i : ℕ) (o : Option Bytes) : Prop :=
  q.lsn = p.lsn ∧ ∀ j, q.payloadAt j = if j = i then o else p.payloadAt j

/-- An insert fills a slot that was not live, or fails and changes nothing. -/
def InsertEffect (p : PageImage) (payload : Bytes) : PageImage × Except Error ℕ → Prop
  | (q, .ok i) => p.payloadAt i = none ∧ SetAt p q i (some payload)
  | (q, .error _) => q = p

def UpdateEffect (p : PageImage) (slot : ℕ) (payload : Bytes) :
    PageImage × Except Error UpdateOutcome → Prop
  | (q, .ok .doesNotFit) => q = p
  | (q, .ok _) => p.payloadAt slot ≠ none ∧ SetAt p q slot (some payload)
  | (q, .error _) => q = p

def DeleteEffect (p : PageImage) (slot : ℕ) : PageImage × Except Error Unit → Prop
  | (q, .ok _) => p.payloadAt slot ≠ none ∧ SetAt p q slot none
  | (q, .error _) => q = p

/-- What a call does to the map, as its result tells. -/
def Effect (p : PageImage) : Call → Prop
  | .insert payload => InsertEffect p payload (p.insert payload)
  | .update slot payload => UpdateEffect p slot payload (p.update slot payload)
  | .delete slot => DeleteEffect p slot (p.delete slot)
  | .compact => p.compact.lsn = p.lsn ∧ ∀ j, p.compact.payloadAt j = p.payloadAt j
  | .setLsn lsn => (p.setLsn lsn).lsn = lsn.toNat ∧
      ∀ j, (p.setLsn lsn).payloadAt j = p.payloadAt j

theorem payload_ne_none (h : p.Live i) : p.payloadAt i ≠ none := by
  rw [payload_of_live h]
  exact Option.some_ne_none _

theorem Inserted.effect {payload : Bytes} {r : PageImage × Except Error ℕ}
    (hr : Inserted p payload r) (h : p.Valid) : r.1.Valid ∧ InsertEffect p payload r := by
  cases hr with
  | failed e => exact ⟨h, rfl⟩
  | stored q i hplaced hfit hdead =>
    exact ⟨hplaced.valid h hfit, payload_of_not_live hdead, hplaced.lsn, hplaced.payloadAt h hfit⟩

theorem Updated.effect {slot : ℕ} {payload : Bytes} {r : PageImage × Except Error UpdateOutcome}
    (hr : Updated p slot payload r) (h : p.Valid) : r.1.Valid ∧ UpdateEffect p slot payload r := by
  cases hr with
  | failed e => exact ⟨h, rfl⟩
  | doesNotFit => exact ⟨h, rfl⟩
  | inPlace q hl hfit hshrunk =>
    exact ⟨hshrunk.valid h hl hfit, payload_ne_none hl, hshrunk.lsn, hshrunk.payloadAt h hl hfit⟩
  | moved q hl hplaced hfit =>
    exact ⟨hplaced.valid h hfit, payload_ne_none hl, hplaced.lsn, hplaced.payloadAt h hfit⟩

theorem Deleted.effect {slot : ℕ} {r : PageImage × Except Error Unit} (hr : Deleted p slot r)
    (h : p.Valid) : r.1.Valid ∧ DeleteEffect p slot r := by
  cases hr with
  | failed e => exact ⟨h, rfl⟩
  | killed q hl hkilled =>
    exact ⟨hkilled.valid h, payload_ne_none hl, hkilled.lsn, hkilled.payloadAt h⟩

theorem call_spec (h : p.Valid) (call : Call) : (call.apply p).Valid ∧ Effect p call := by
  cases call with
  | insert payload => exact (insert_spec h.framed payload).effect h
  | update slot payload => exact (update_spec h slot payload).effect h
  | delete slot => exact (delete_spec h.framed slot).effect h
  | compact =>
    obtain ⟨hv, hl, -, -, hp⟩ := compact_spec h
    exact ⟨hv, hl, hp⟩
  | setLsn lsn =>
    obtain ⟨hv, hp, hl⟩ := setLsn_spec h lsn
    exact ⟨hv, hl, hp⟩

theorem run_valid (calls : List Call) : (run calls).Valid := by
  have hfold : ∀ p : PageImage, p.Valid → (calls.foldl Call.apply p).Valid := by
    induction calls with
    | nil => exact fun p h => h
    | cons call calls ih => exact fun p h => ih _ (call_spec h call).1
  exact hfold new blank_new.valid

/-- A page as a finite map with its payloads in place. -/
structure Slotted (p : PageImage) : Prop where
  finite : ∀ i, p.slotCount ≤ i → p.payloadAt i = none
  get : ∀ i b, p.get i = .ok b ↔ p.payloadAt i = some b
  slots_below : headerSize + p.slotCount * slotSize ≤ p.freeEnd
  inside : ∀ i b, p.payloadAt i = some b →
    p.freeEnd ≤ (p.slotAt i).1 ∧ (p.slotAt i).1 + b.length ≤ pageSize
  apart : ∀ i j b c, i ≠ j → p.payloadAt i = some b → p.payloadAt j = some c →
    (p.slotAt i).1 + b.length ≤ (p.slotAt j).1 ∨ (p.slotAt j).1 + c.length ≤ (p.slotAt i).1
  reads_back : fromBytes p.sealPage.bytes = .ok p.sealPage ∧ p.sealPage.lsn = p.lsn ∧
    ∀ i, p.sealPage.payloadAt i = p.payloadAt i

theorem Valid.slotted (h : p.Valid) : Slotted p where
  finite i hi := payload_of_not_live fun hl => absurd hl.1 (Nat.not_lt.mpr hi)
  get i b := get_eq_ok h
  slots_below := h.framed.slots_le
  inside i b hb := by
    rw [length_payload h hb]
    exact h.inside i (payload_isSome.mp (by rw [hb]; rfl))
  apart i j b c hne hb hc := by
    rw [length_payload h hb, length_payload h hc]
    exact h.apart i j hne (payload_isSome.mp (by rw [hb]; rfl)) (payload_isSome.mp (by rw [hc]; rfl))
  reads_back := ⟨fromBytes_sealPage h.framed, (sealPage_spec h).2, (sealPage_spec h).1⟩

/-- After any calls the page is a finite map, and the next call changes its own
slot or, if it fails or the payload does not fit, nothing. -/
theorem slotted_map (calls : List Call) (call : Call) :
    Slotted (run calls) ∧ Effect (run calls) call :=
  ⟨(run_valid calls).slotted, (call_spec (run_valid calls) call).2⟩

end Adabt.Storage.PageImage
