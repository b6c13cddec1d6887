import Adabt.Library.Sequences
import Adabt.Storage.WalFrames
import Mathlib.Data.List.Chain
import Mathlib.Data.List.Nodup

/-! # What a log directory reads as

A directory, listed in any order, reads as a list of pieces: the segments in
ascending order with the entries that decode from each. Replay over the files is
replay over the decoded segments. -/

set_option autoImplicit false

/-! ## The log in its directory

The files of the directory, in any order, and what the open log keeps about
them. A segment file is named after the first LSN it was created with. The clock
readings are arguments, and LSNs are numbers that wrap as `u64`s do. -/

namespace Adabt.Storage
open Adabt.Core Adabt.Library

structure SegmentFile where
  name : ℕ
  bytes : Bytes
  deriving DecidableEq, Repr

structure SegmentInfo where
  firstLsn : ℕ
  firstNanos : ℕ
  path : ℕ
  deriving DecidableEq, Repr

/-- The open log. The writer appends to the file of the last segment. -/
structure OpenWal where
  segments : List SegmentInfo
  activeBytes : ℕ
  segmentBytes : ℕ
  nextLsn : ℕ
  /-- The oldest entry still present; zero while nothing has been discarded. -/
  startLsn : ℕ
  deriving DecidableEq, Repr

abbrev Directory := List SegmentFile

namespace Directory

/-- `File::create`, which empties a file of that name. -/
def create (dir : Directory) (name : ℕ) (bytes : Bytes) : Directory :=
  dir.filter (·.name ≠ name) ++ [⟨name, bytes⟩]

def append (dir : Directory) (name : ℕ) (bytes : Bytes) : Directory :=
  dir.map fun f => if f.name = name then { f with bytes := f.bytes ++ bytes } else f

def setLen (dir : Directory) (name n : ℕ) : Directory :=
  dir.map fun f => if f.name = name then { f with bytes := f.bytes.take n } else f

def contents (dir : Directory) (name : ℕ) : Bytes :=
  ((dir.find? (·.name = name)).map (·.bytes)).getD []

end Directory

namespace OpenWal

def infoOf (f : SegmentFile) : Option SegmentInfo :=
  (readSegmentHeader f.bytes).map fun (first, nanos) => ⟨first, nanos, f.name⟩

/-- Every readable segment, ascending. -/
def listSegments (dir : Directory) : List SegmentInfo :=
  (dir.filterMap infoOf).mergeSort fun a b => a.firstLsn ≤ b.firstLsn

def createSegment (dir : Directory) (firstLsn nanos : ℕ) : SegmentInfo × Directory :=
  (⟨firstLsn, nanos, firstLsn⟩, dir.create firstLsn (headerBytes firstLsn nanos))

def lastLsnIn (file : Bytes) : Option ℕ := (entriesIn file).getLast?.map (·.lsn)

def activeOf (segments : List SegmentInfo) : SegmentInfo := segments.getLastD ⟨0, 0, 0⟩

def «open» (dir : Directory) (nanos : ℕ) : OpenWal × Directory :=
  let listed := listSegments dir
  let (segments, dir) :=
    if listed.isEmpty then
      let (seg, dir) := createSegment dir 1 nanos
      ([seg], dir)
    else (listed, dir)
  let active := activeOf segments
  let goodLen := intactPrefixLen (dir.contents active.path)
  let dir := dir.setLen active.path goodLen
  let nextLsn := ((lastLsnIn (dir.contents active.path)).map (· + 1)).getD active.firstLsn
  let first := (segments.head?.map (·.firstLsn)).getD 0
  ({ segments := segments
     activeBytes := goodLen
     segmentBytes := defaultSegmentBytes
     nextLsn := nextLsn
     startLsn := if first ≤ 1 then 0 else first }, dir)

def setSegmentBytes (w : OpenWal) (bytes : ℕ) : OpenWal :=
  { w with segmentBytes := max bytes (segmentHeader + 1) }

/-- Seal the active segment and begin a new one at the next LSN. -/
def rotate (w : OpenWal) (dir : Directory) (nanos : ℕ) : OpenWal × Directory :=
  let (seg, dir) := createSegment dir w.nextLsn nanos
  ({ w with segments := w.segments ++ [seg], activeBytes := segmentHeader }, dir)

/-- Append one entry. The second clock reading is that of the segment a rotation begins. -/
def append (w : OpenWal) (dir : Directory) (nanos headerNanos txn : ℕ) (op : WalOp) :
    Except Error ℕ × OpenWal × Directory :=
  let lsn := w.nextLsn
  let w := { w with nextLsn := (w.nextLsn + 1) % 2 ^ 64 }
  let e : WalEntry := ⟨lsn, nanos, txn, op⟩
  let len := e.encodePayload.length
  if maxEntry < len % 2 ^ 32 then
    (.error (.corruption ("wal entry of " ++ toString len ++ " bytes exceeds the " ++
      toString maxEntry ++ "-byte limit")), w, dir)
  else
    let dir := Directory.append dir (activeOf w.segments).path e.frame
    let w := { w with activeBytes := w.activeBytes + (8 + len) }
    if w.segmentBytes ≤ w.activeBytes then (.ok lsn, w.rotate dir headerNanos)
    else (.ok lsn, w, dir)

/-- The number of leading segments the next one of which starts at or before
`through + 1`, a sum that wraps. -/
def removable (through : ℕ) : List SegmentInfo → ℕ
  | _ :: next :: rest =>
    if next.firstLsn ≤ (through + 1) % 2 ^ 64 then removable through (next :: rest) + 1 else 0
  | _ => 0

/-- Drop every segment that lies entirely below `through`. -/
def discardBelow (w : OpenWal) (dir : Directory) (through : ℕ) : OpenWal × Directory :=
  let n := removable through w.segments
  if n = 0 then (w, dir)
  else
    let gone := (w.segments.take n).map (·.path)
    let kept := w.segments.drop n
    ({ w with segments := kept, startLsn := (kept.head?.map (·.firstLsn)).getD 0 },
      dir.filter fun f => f.name ∉ gone)

def entriesFromSegments (dir : Directory) (start : ℕ) : List SegmentInfo → List WalEntry
  | [] => []
  | seg :: rest =>
    -- A segment is skipped only when the next one starts at or below the point asked for.
    let skipped : Bool := match rest.head? with
      | some next => next.firstLsn ≤ start
      | none => false
    (if skipped then [] else (entriesIn (dir.contents seg.path)).filter (start ≤ ·.lsn)) ++
      entriesFromSegments dir start rest

/-- Entries at or above `start`, across every segment that can hold them. -/
def entriesFrom (dir : Directory) (start : ℕ) : List WalEntry :=
  entriesFromSegments dir start (listSegments dir)

end OpenWal

end Adabt.Storage

/-! ## Reading -/

namespace Adabt.Storage
open Adabt.Core Adabt.Library

/-- A segment with the clock of its header and its entries. -/
structure Piece where
  firstLsn : ℕ
  nanos : ℕ
  entries : List WalEntry

namespace Piece

def header (p : Piece) : Bytes := headerBytes p.firstLsn p.nanos

def file (p : Piece) : SegmentFile := ⟨p.firstLsn, p.header ++ frames p.entries⟩

def info (p : Piece) : SegmentInfo := ⟨p.firstLsn, p.nanos, p.firstLsn⟩

def segment (p : Piece) : Segment := ⟨p.firstLsn, p.entries⟩

/-- The file of a segment whose frames decode to the entries of the piece. -/
structure Image (p : Piece) (f : SegmentFile) : Prop where
  name : f.name = p.firstLsn
  decodes : ∃ tail, f.bytes = p.header ++ tail ∧ decodeFrames tail = p.entries
  firstLsn_lt : p.firstLsn < 2 ^ 64
  nanos_lt : p.nanos < 2 ^ 64

end Piece

/-- The file of a segment whose header and frames read as the piece says. -/
structure Piece.Shown (p : Piece) (f : SegmentFile) : Prop where
  name : f.name = p.firstLsn
  header : readSegmentHeader f.bytes = some (p.firstLsn, p.nanos)
  entries : entriesIn f.bytes = p.entries

/-- The readable files of the directory are those of the pieces, which ascend. -/
structure Listed (dir : Directory) (ps : List Piece) : Prop where
  files : ∃ fs junk, dir.Perm (fs ++ junk) ∧ List.Forall₂ Piece.Shown ps fs ∧
    ∀ f ∈ junk, readSegmentHeader f.bytes = none
  nodup : (dir.map (·.name)).Nodup
  ascending : ps.Pairwise (fun p q => p.firstLsn < q.firstLsn)

/-- The files of the directory are those of the pieces, which ascend. -/
structure Reads (dir : Directory) (ps : List Piece) : Prop where
  files : ∃ fs, dir.Perm fs ∧ List.Forall₂ Piece.Image ps fs
  ascending : ps.Pairwise (fun p q => p.firstLsn < q.firstLsn)

/-! ## Names -/

theorem names_of_images {ps : List Piece} {fs : List SegmentFile}
    (h : List.Forall₂ Piece.Image ps fs) : fs.map (·.name) = ps.map (·.firstLsn) := by
  induction h with
  | nil => rfl
  | cons h _ ih => rw [List.map_cons, List.map_cons, h.name, ih]

theorem nodup_firstLsn {ps : List Piece} (h : ps.Pairwise (fun p q => p.firstLsn < q.firstLsn)) :
    (ps.map (·.firstLsn)).Nodup :=
  List.pairwise_map.mpr (h.imp fun hlt => hlt.ne)

theorem find?_name {fs : List SegmentFile} (h : (fs.map (·.name)).Nodup) {f : SegmentFile}
    (hf : f ∈ fs) : fs.find? (·.name = f.name) = some f := by
  induction fs with
  | nil => cases hf
  | cons g fs ih =>
    rw [List.map_cons, List.nodup_cons] at h
    rw [List.find?_cons]
    rcases List.mem_cons.mp hf with rfl | hf
    · simp
    · have hne : g.name ≠ f.name := fun he => h.1 (he ▸ List.mem_map_of_mem hf)
      simp only [hne, decide_false]
      exact ih h.2 hf

theorem contents_of_mem {dir : Directory} (h : (dir.map (·.name)).Nodup) {f : SegmentFile}
    (hf : f ∈ dir) : dir.contents f.name = f.bytes := by
  rw [Directory.contents, find?_name h hf]
  rfl

namespace Reads

variable {dir : Directory} {ps : List Piece}

theorem nodup (h : Reads dir ps) : (dir.map (·.name)).Nodup := by
  obtain ⟨fs, hperm, himg⟩ := h.files
  rw [(hperm.map _).nodup_iff, names_of_images himg]
  exact nodup_firstLsn h.ascending

end Reads

/-! ## Listing -/

theorem Piece.Image.shown {p : Piece} {f : SegmentFile} (h : p.Image f) : p.Shown f where
  name := h.name
  header := by
    obtain ⟨tail, htail, -⟩ := h.decodes
    rw [htail, Piece.header, readSegmentHeader_file h.firstLsn_lt h.nanos_lt]
  entries := by
    obtain ⟨tail, htail, hd⟩ := h.decodes
    have hl : p.header.length = segmentHeader := length_headerBytes _ _
    rw [entriesIn, htail, min_eq_left (by rw [List.length_append, hl]; omega), List.drop_left' hl, hd]

theorem Reads.listed {dir : Directory} {ps : List Piece} (h : Reads dir ps) : Listed dir ps where
  files := by
    obtain ⟨fs, hperm, himg⟩ := h.files
    refine ⟨fs, [], by rwa [List.append_nil], himg.imp fun _ _ hi => hi.shown, ?_⟩
    exact fun f hf => absurd hf List.not_mem_nil
  nodup := h.nodup
  ascending := h.ascending

theorem infoOf_shown {p : Piece} {f : SegmentFile} (h : p.Shown f) :
    OpenWal.infoOf f = some p.info := by
  rw [OpenWal.infoOf, h.header, h.name]
  rfl

theorem infos_of_shown {ps : List Piece} {fs : List SegmentFile}
    (h : List.Forall₂ Piece.Shown ps fs) : fs.filterMap OpenWal.infoOf = ps.map Piece.info := by
  induction h with
  | nil => rfl
  | cons h _ ih => rw [List.filterMap_cons, infoOf_shown h, List.map_cons, ih]

namespace Listed

variable {dir : Directory} {ps : List Piece}

theorem contents (h : Listed dir ps) {p : Piece} (hp : p ∈ ps) :
    ∃ f ∈ dir, p.Shown f ∧ dir.contents p.firstLsn = f.bytes := by
  obtain ⟨fs, junk, hperm, hshown, -⟩ := h.files
  obtain ⟨f, hf, hs⟩ := forall₂_mem_left hshown hp
  have hmem : f ∈ dir := hperm.mem_iff.mpr (List.mem_append_left _ hf)
  have hc := contents_of_mem h.nodup hmem
  rw [hs.name] at hc
  exact ⟨f, hmem, hs, hc⟩

theorem entriesIn_contents (h : Listed dir ps) {p : Piece} (hp : p ∈ ps) :
    entriesIn (dir.contents p.firstLsn) = p.entries := by
  obtain ⟨f, -, hs, hc⟩ := h.contents hp
  rw [hc, hs.entries]

/-- Sorting gives the segments in the one ascending order, however they were listed. -/
theorem listSegments (h : Listed dir ps) : OpenWal.listSegments dir = ps.map Piece.info := by
  obtain ⟨fs, junk, hperm, hshown, hjunk⟩ := h.files
  have hmem : (OpenWal.listSegments dir).Perm (ps.map Piece.info) := by
    have hnone : junk.filterMap OpenWal.infoOf = [] := by
      rw [List.filterMap_eq_nil_iff]
      intro f hf
      rw [OpenWal.infoOf, hjunk f hf]
      rfl
    have hinfos := hperm.filterMap OpenWal.infoOf
    rw [List.filterMap_append, hnone, List.append_nil, infos_of_shown hshown] at hinfos
    exact (List.mergeSort_perm _ _).trans hinfos
  have hsorted : (ps.map Piece.info).Pairwise (fun a b => a.firstLsn ≤ b.firstLsn) :=
    List.pairwise_map.mpr (h.ascending.imp fun hlt => le_of_lt hlt)
  have hmerge : (OpenWal.listSegments dir).Pairwise (fun a b => a.firstLsn ≤ b.firstLsn) := by
    have hp : (OpenWal.listSegments dir).Pairwise fun a b => decide (a.firstLsn ≤ b.firstLsn) :=
      List.pairwise_mergeSort (by simpa using fun a b c => Nat.le_trans)
        (by simpa using fun a b => Nat.le_total _ _) (dir.filterMap OpenWal.infoOf)
    exact hp.imp fun hle => of_decide_eq_true hle
  apply hmem.eq_of_pairwise _ hmerge hsorted
  intro a b ha hb hab hba
  obtain ⟨p, hp, rfl⟩ := List.mem_map.mp (hmem.mem_iff.mp ha)
  obtain ⟨q, hq, rfl⟩ := List.mem_map.mp hb
  have heq : p.firstLsn = q.firstLsn := le_antisymm hab hba
  rw [List.inj_on_of_nodup_map (nodup_firstLsn h.ascending) hp hq heq]

/-! ## Replay -/

theorem entriesFromSegments (h : Listed dir ps) (start : ℕ) {qs : List Piece} (hq : qs ⊆ ps) :
    OpenWal.entriesFromSegments dir start (qs.map Piece.info) =
      Wal.entriesFromSegments start (qs.map Piece.segment) := by
  induction qs with
  | nil => rfl
  | cons p qs ih =>
    have hp : p ∈ ps := hq List.mem_cons_self
    have hrest := ih (List.Subset.trans (List.subset_cons_self p qs) hq)
    rw [List.map_cons, List.map_cons, OpenWal.entriesFromSegments, Wal.entriesFromSegments, hrest]
    cases qs with
    | nil => simp [Piece.info, Piece.segment, h.entriesIn_contents hp]
    | cons q qs =>
      by_cases hle : q.firstLsn ≤ start
      · simp [Piece.info, Piece.segment, hle]
      · simp [Piece.info, Piece.segment, hle, h.entriesIn_contents hp]

/-- Replay of the files is replay of the decoded segments. -/
theorem entriesFrom (h : Listed dir ps) (start : ℕ) :
    OpenWal.entriesFrom dir start = Wal.entriesFromSegments start (ps.map Piece.segment) := by
  rw [OpenWal.entriesFrom, h.listSegments]
  exact h.entriesFromSegments start (List.Subset.refl ps)

/-- Replay from the beginning skips no segment. -/
theorem entriesFrom_zero (h : Listed dir ps) :
    OpenWal.entriesFrom dir 0 = ps.flatMap (·.entries) := by
  rw [h.entriesFrom]
  have hasc := h.ascending
  clear h
  induction ps with
  | nil => rfl
  | cons p ps ih =>
    rw [List.map_cons, Wal.entriesFromSegments, ih (List.pairwise_cons.mp hasc).2, List.flatMap_cons]
    cases ps with
    | nil => simp [Piece.segment]
    | cons q ps =>
      have hlt := (List.pairwise_cons.mp hasc).1 q List.mem_cons_self
      simp [Piece.segment, Nat.ne_of_gt (Nat.zero_lt_of_lt hlt)]

end Listed

theorem Reads.listSegments {dir : Directory} {ps : List Piece} (h : Reads dir ps) :
    OpenWal.listSegments dir = ps.map Piece.info := h.listed.listSegments

theorem Reads.entriesFrom {dir : Directory} {ps : List Piece} (h : Reads dir ps) (start : ℕ) :
    OpenWal.entriesFrom dir start = Wal.entriesFromSegments start (ps.map Piece.segment) :=
  h.listed.entriesFrom start

theorem Reads.entriesFrom_zero {dir : Directory} {ps : List Piece} (h : Reads dir ps) :
    OpenWal.entriesFrom dir 0 = ps.flatMap (·.entries) := h.listed.entriesFrom_zero

/-- Entries of a piece lie below the first LSN of the next. -/
def Bounded (ps : List Piece) : Prop :=
  List.IsChain (fun p q => ∀ e ∈ p.entries, e.lsn < q.firstLsn) ps

theorem entriesFromSegments_filter {ps : List Piece} (h : Bounded ps) (start : ℕ) :
    Wal.entriesFromSegments start (ps.map Piece.segment) =
      (ps.flatMap (·.entries)).filter (start ≤ ·.lsn) := by
  induction ps with
  | nil => rfl
  | cons p ps ih =>
    rw [List.map_cons, Wal.entriesFromSegments, ih h.tail, List.flatMap_cons, List.filter_append]
    congr 1
    cases ps with
    | nil => rfl
    | cons q ps =>
      have hlt : ∀ e ∈ p.entries, e.lsn < q.firstLsn := (List.isChain_cons_cons.mp h).1
      by_cases hle : q.firstLsn ≤ start
      · have hnone : p.entries.filter (start ≤ ·.lsn) = [] := by
          rw [List.filter_eq_nil_iff]
          intro e he
          have := hlt e he
          simp
          omega
        simp [Piece.segment, hle, hnone]
      · simp [Piece.segment, hle]

end Adabt.Storage
