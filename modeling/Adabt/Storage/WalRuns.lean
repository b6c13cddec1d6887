import Adabt.Storage.WalChain

/-! # Runs of the log

The log is appended to, synced, discarded from, closed and reopened in any
order. A crash leaves the active segment cut anywhere behind what was last
synced. The history of a run is what was appended and not cut off. -/

set_option autoImplicit false

namespace Adabt.Storage
open Adabt.Core Adabt.Library

/-- An open log with its files, and what a run remembers: how much of the active
segment was synced, what was appended and not cut off, and the largest LSN
discarded through. -/
structure LogRun where
  wal : OpenWal
  dir : Directory
  synced : ℕ
  history : List WalEntry
  through : ℕ
  deriving DecidableEq

namespace LogRun

/-- The file being appended to. -/
def activeFile (r : LogRun) : Bytes := r.dir.contents (OpenWal.activeOf r.wal.segments).path

/-- The files with the active segment cut, by a crash or because the rest is still buffered. -/
def cutTo (r : LogRun) (n : ℕ) : Directory := r.dir.setLen (OpenWal.activeOf r.wal.segments).path n

/-- How many entries of the history lie before the active segment. -/
def sealedCount (r : LogRun) : ℕ := (OpenWal.activeOf r.wal.segments).firstLsn - 1

/-- The entries that lie wholly before a cut of the active segment. -/
def surviving (r : LogRun) (n : ℕ) : List WalEntry :=
  r.history.take r.sealedCount ++ fitting (n - segmentHeader) (r.history.drop r.sealedCount)

/-- The log opened in an empty directory. -/
def start (nanos : ℕ) : LogRun :=
  let (wal, dir) := OpenWal.open [] nanos
  ⟨wal, dir, segmentHeader, [], 0⟩

/-- What an append that returned an LSN leaves. A rotation syncs what it seals and
the header of the segment it begins. -/
def appended (r : LogRun) (e : WalEntry) (wal : OpenWal) (dir : Directory) : LogRun :=
  ⟨wal, dir, if wal.segments.length = r.wal.segments.length then r.synced else segmentHeader,
    r.history ++ [e], r.through⟩

def discarded (r : LogRun) (through : ℕ) : LogRun :=
  let (wal, dir) := r.wal.discardBelow r.dir through
  ⟨wal, dir, r.synced, r.history, max r.through through⟩

/-- The log opened on the files that a cut left. -/
def reopened (r : LogRun) (n nanos : ℕ) (dir : Directory) : LogRun :=
  let (wal, dir) := OpenWal.open dir nanos
  ⟨wal, dir, min r.synced wal.activeBytes, r.surviving n, r.through⟩

/-- One call, or a close or crash with the open after it. Sequence numbers and
clock readings stay within `u64`, and the directory is listed in any order. -/
inductive Step : LogRun → LogRun → Prop
  | append (r : LogRun) (nanos headerNanos txn : ℕ) (op : WalOp) (lsn : ℕ) (wal : OpenWal)
      (dir : Directory) (hentry : WalEntry.Loggable ⟨r.wal.nextLsn, nanos, txn, op⟩)
      (hclock : headerNanos < 2 ^ 64) (hlsn : r.wal.nextLsn + 1 < 2 ^ 64)
      (hok : r.wal.append r.dir nanos headerNanos txn op = (.ok lsn, wal, dir)) :
      Step r (r.appended ⟨lsn, nanos, txn, op⟩ wal dir)
  | sync (r : LogRun) : Step r { r with synced := r.activeFile.length }
  | setSegmentBytes (r : LogRun) (n : ℕ) : Step r { r with wal := r.wal.setSegmentBytes n }
  | discard (r : LogRun) (through : ℕ) : Step r (r.discarded through)
  | reopen (r : LogRun) (n nanos : ℕ) (dir : Directory) (hsynced : r.synced ≤ n)
      (hlen : n ≤ r.activeFile.length) (hdir : dir.Perm (r.cutTo n)) :
      Step r (r.reopened n nanos dir)

inductive Reachable : LogRun → Prop
  | start (nanos : ℕ) (hclock : nanos < 2 ^ 64) : Reachable (start nanos)
  | step {r r' : LogRun} (h : Reachable r) (hstep : Step r r') : Reachable r'

/-- An append as a step to what it leaves. -/
theorem Reachable.append {r : LogRun} (h : Reachable r) {nanos headerNanos txn : ℕ} {op : WalOp}
    {lsn : ℕ} (hentry : WalEntry.Loggable ⟨r.wal.nextLsn, nanos, txn, op⟩)
    (hclock : headerNanos < 2 ^ 64) (hlsn : r.wal.nextLsn + 1 < 2 ^ 64)
    (hok : (r.wal.append r.dir nanos headerNanos txn op).1 = .ok lsn) :
    Reachable (r.appended ⟨lsn, nanos, txn, op⟩
      (r.wal.append r.dir nanos headerNanos txn op).2.1
      (r.wal.append r.dir nanos headerNanos txn op).2.2) :=
  h.step (.append r nanos headerNanos txn op lsn _ _ hentry hclock hlsn (Prod.ext hok rfl))

/-! ## The invariant -/

/-- The entries discarded with their segments, then those of the segments present. -/
structure Holds (r : LogRun) (older : List WalEntry) (init : List Piece) (p : Piece) : Prop where
  chained : Chained (init ++ [p])
  files : r.dir.Perm (init.map Piece.file ++ [p.file])
  segments : r.wal.segments = init.map Piece.info ++ [p.info]
  nextLsn : r.wal.nextLsn = p.next
  history : r.history = older ++ init.flatMap (·.entries) ++ p.entries
  numbered : lsns older = List.range' 1 older.length
  first : (init ++ [p]).head?.map (·.firstLsn) = some (older.length + 1)
  synced : segmentHeader ≤ r.synced
  startLsn : r.wal.startLsn = if older.length = 0 then 0 else older.length + 1
  through : older.length ≤ r.through

/-- A change to the file of one name leaves the files of earlier pieces alone. -/
theorem map_files {init : List Piece} {p : Piece} (h : Chained (init ++ [p]))
    (g : SegmentFile → SegmentFile) (hg : ∀ f, f.name ≠ p.firstLsn → g f = f) {dir : Directory}
    {f : SegmentFile} (hdir : dir.Perm (init.map Piece.file ++ [f])) :
    (dir.map g).Perm (init.map Piece.file ++ [g f]) := by
  have hinit : (init.map Piece.file).map g = init.map Piece.file := by
    rw [List.map_map]
    apply List.map_congr_left
    intro q hq
    exact hg _ ((List.pairwise_append.mp h.ascending).2.2 q hq p (by simp)).ne
  have hmap := hdir.map g
  rwa [List.map_append, hinit] at hmap

namespace Holds

variable {r : LogRun} {older : List WalEntry} {init : List Piece} {p : Piece}

theorem sound (h : Holds r older init p) : p.Sound := h.chained.sound p (by simp)

theorem active (h : Holds r older init p) : OpenWal.activeOf r.wal.segments = p.info := by
  rw [h.segments, OpenWal.activeOf, List.getLastD_concat]

theorem activeFile (h : Holds r older init p) : r.activeFile = p.file.bytes := by
  have hn : (r.dir.map (·.name)).Nodup := by
    rw [(h.files.map _).nodup_iff, ← List.map_singleton, ← List.map_append, List.map_map]
    exact nodup_firstLsn h.chained.ascending
  have hmem : p.file ∈ r.dir := h.files.mem_iff.mpr (by simp)
  rw [LogRun.activeFile, h.active]
  exact contents_of_mem hn hmem

theorem cutTo (h : Holds r older init p) (n : ℕ) :
    (r.cutTo n).Perm (init.map Piece.file ++ [p.cutFile n]) := by
  have hmap := map_files h.chained
    (fun f => if f.name = p.firstLsn then { f with bytes := f.bytes.take n } else f)
    (fun f hf => if_neg hf) h.files
  rw [if_pos (show p.file.name = p.firstLsn from rfl)] at hmap
  rw [LogRun.cutTo, h.active]
  exact hmap

theorem length_before (h : Holds r older init p) :
    (older ++ init.flatMap (·.entries)).length + 1 = p.firstLsn := by
  have hfirst := h.first
  cases init with
  | nil =>
    have hp : p.firstLsn = older.length + 1 := by simpa using hfirst
    simp [hp]
  | cons q init =>
    have hq : q.firstLsn = older.length + 1 := by simpa using hfirst
    have hp := h.chained.firstLsn_last
    rw [List.length_append]
    omega

theorem history_numbered (h : Holds r older init p) :
    lsns r.history = List.range' 1 r.history.length := by
  rw [h.history, List.append_assoc]
  apply lsns_join h.numbered
  have hfirst := h.first
  have hjoin : init.flatMap (·.entries) ++ p.entries = (init ++ [p]).flatMap (·.entries) := by simp
  rw [hjoin]
  have hch := h.chained
  cases hl : init ++ [p] with
  | nil => simp at hl
  | cons q ps =>
    rw [hl] at hfirst hch
    have hq : q.firstLsn = older.length + 1 := by simpa using hfirst
    rw [Nat.add_comm, ← hq]
    exact hch.numbered

theorem nextLsn_eq (h : Holds r older init p) : r.wal.nextLsn = r.history.length + 1 := by
  have hb := h.length_before
  rw [h.nextLsn, Piece.next, h.history, List.length_append]
  omega

/-- What survives a cut is the discarded entries, the sealed ones and those before the cut. -/
theorem surviving (h : Holds r older init p) (n : ℕ) :
    r.surviving n = older ++ init.flatMap (·.entries) ++ (p.cut n).entries := by
  have hlen : (older ++ init.flatMap (·.entries)).length = r.sealedCount := by
    have hb := h.length_before
    rw [LogRun.sealedCount, h.active]
    change _ = p.firstLsn - 1
    omega
  rw [LogRun.surviving, h.history, List.take_left' hlen, List.drop_left' hlen]
  rfl

theorem surviving_le (h : Holds r older init p) (n : ℕ) : r.surviving n <+: r.history := by
  rw [h.surviving, h.history]
  exact List.prefix_append_right_inj _ |>.mpr (fitting_le _ _)

/-- Replay of the cut files from a point that was not discarded. -/
theorem entriesFrom (h : Holds r older init p) {n : ℕ} (hn : r.synced ≤ n) {dir : Directory}
    (hdir : dir.Perm (r.cutTo n)) {start : ℕ} (hstart : r.wal.startLsn ≤ start) :
    OpenWal.entriesFrom dir start = (r.surviving n).filter (start ≤ ·.lsn) := by
  have hseg := h.synced.trans hn
  have hch := h.chained.replace (h.sound.cut n) rfl
  rw [(reads_cut h.chained hseg (hdir.trans (h.cutTo n))).entriesFrom,
    entriesFromSegments_filter hch.bounded, h.surviving, List.append_assoc, List.filter_append]
  have hnone : older.filter (start ≤ ·.lsn) = [] := by
    rw [List.filter_eq_nil_iff]
    intro e he
    have hlt := (lsn_mem h.numbered he).2
    have hpos := List.length_pos_of_mem he
    have hs := h.startLsn
    rw [if_neg (by omega)] at hs
    simp
    omega
  rw [hnone, List.nil_append]
  simp

/-! ## Steps -/

theorem file_append (p : Piece) (e : WalEntry) :
    (p.append e).file = ⟨p.firstLsn, p.file.bytes ++ e.frame⟩ := by
  simp [Piece.file, Piece.append, Piece.header, frames]

/-- The entry is written behind those of the active segment. -/
theorem write (h : Holds r older init p) {e : WalEntry} (he : e.Loggable) (hlsn : e.lsn = p.next)
    (hb : p.next + 1 < 2 ^ 64) (activeBytes synced : ℕ) (hsynced : segmentHeader ≤ synced) :
    Holds ⟨{ r.wal with nextLsn := p.next + 1, activeBytes := activeBytes },
      r.dir.append p.firstLsn e.frame, synced, r.history ++ [e], r.through⟩ older init (p.append e) where
  chained := h.chained.replace (h.sound.append he hlsn hb) rfl
  files := by
    have hmap := map_files h.chained
      (fun f => if f.name = p.firstLsn then { f with bytes := f.bytes ++ e.frame } else f)
      (fun f hf => if_neg hf) h.files
    rw [if_pos (show p.file.name = p.firstLsn from rfl)] at hmap
    rw [file_append]
    exact hmap
  segments := h.segments
  nextLsn := (p.next_append e).symm
  history := by
    change r.history ++ [e] = _ ++ (p.entries ++ [e])
    rw [h.history, List.append_assoc]
  numbered := h.numbered
  first := by
    have hfirst := h.first
    cases init with
    | nil => exact hfirst
    | cons q init => exact hfirst
  synced := hsynced
  startLsn := h.startLsn
  through := h.through

/-- The next segment begins where the active one ends. -/
theorem rotate (h : Holds r older init p) (hne : p.entries ≠ []) {nanos : ℕ} (hn : nanos < 2 ^ 64) :
    Holds ⟨(r.wal.rotate r.dir nanos).1, (r.wal.rotate r.dir nanos).2, segmentHeader, r.history,
      r.through⟩ older (init ++ [p]) ⟨p.next, nanos, []⟩ where
  chained := by
    apply h.chained.extend hne _ rfl
    exact ⟨hn, h.sound.bound, rfl, fun e he => absurd he (by simp)⟩
  files := by
    have hlt : ∀ f ∈ init.map Piece.file ++ [p.file], f.name ≠ p.next := by
      intro f hf
      have hpos := List.length_pos_of_ne_nil hne
      rcases List.mem_append.mp hf with hf | hf
      · obtain ⟨q, hq, rfl⟩ := List.mem_map.mp hf
        have hlt := (List.pairwise_append.mp h.chained.ascending).2.2 q hq p (by simp)
        simp only [Piece.file, Piece.next]
        omega
      · rw [List.mem_singleton.mp hf]
        simp only [Piece.file, Piece.next]
        omega
    have hkeep : r.dir.filter (fun f => f.name ≠ p.next) = r.dir := by
      rw [List.filter_eq_self]
      intro f hf
      simpa using hlt f (h.files.mem_iff.mp hf)
    simp only [OpenWal.rotate, OpenWal.createSegment, Directory.create, h.nextLsn, hkeep,
      List.map_append, List.map_singleton]
    have hf : Piece.file ⟨p.next, nanos, []⟩ = ⟨p.next, headerBytes p.next nanos⟩ := by
      simp [Piece.file, Piece.header, frames]
    rw [hf]
    exact h.files.append_right _
  segments := by
    simp only [OpenWal.rotate, OpenWal.createSegment, h.segments, h.nextLsn, List.map_append,
      List.map_singleton]
    rfl
  nextLsn := h.nextLsn
  history := by
    rw [h.history]
    simp
  numbered := h.numbered
  first := by
    have hfirst := h.first
    cases init with
    | nil => exact hfirst
    | cons q init => exact hfirst
  synced := le_rfl
  startLsn := h.startLsn
  through := h.through

/-- An append that returned an LSN wrote the entry and may have rotated. -/
theorem append_ok {w : OpenWal} {dir : Directory} {nanos headerNanos txn : ℕ} {op : WalOp} {lsn : ℕ}
    {w' : OpenWal} {dir' : Directory}
    (h : w.append dir nanos headerNanos txn op = (.ok lsn, w', dir')) :
    lsn = w.nextLsn ∧ ∃ activeBytes,
      let w₁ : OpenWal := { w with nextLsn := (w.nextLsn + 1) % 2 ^ 64, activeBytes := activeBytes }
      let dir₁ := dir.append (OpenWal.activeOf w.segments).path
        (WalEntry.frame ⟨w.nextLsn, nanos, txn, op⟩)
      (w', dir') = (w₁, dir₁) ∨ (w', dir') = w₁.rotate dir₁ headerNanos := by
  unfold OpenWal.append at h
  dsimp only at h
  split at h
  · cases h
  · split at h
    · cases h
      exact ⟨rfl, _, .inr rfl⟩
    · cases h
      exact ⟨rfl, _, .inl rfl⟩

theorem append (h : Holds r older init p) {nanos headerNanos txn : ℕ} {op : WalOp} {lsn : ℕ}
    {wal : OpenWal} {dir : Directory} (he : WalEntry.Loggable ⟨r.wal.nextLsn, nanos, txn, op⟩)
    (hclock : headerNanos < 2 ^ 64) (hlsn : r.wal.nextLsn + 1 < 2 ^ 64)
    (hok : r.wal.append r.dir nanos headerNanos txn op = (.ok lsn, wal, dir)) :
    ∃ init' p', Holds (r.appended ⟨lsn, nanos, txn, op⟩ wal dir) older init' p' := by
  obtain ⟨rfl, activeBytes, hw⟩ := append_ok hok
  have hpath : (OpenWal.activeOf r.wal.segments).path = p.firstLsn := by rw [h.active]; rfl
  dsimp only at hw
  rw [Nat.mod_eq_of_lt hlsn, hpath] at hw
  rw [h.nextLsn] at hlsn he hw ⊢
  have hwrite := h.write he rfl hlsn activeBytes
  rcases hw with hw | hw
  · obtain ⟨rfl, rfl⟩ := Prod.mk.inj hw
    refine ⟨init, p.append ⟨p.next, nanos, txn, op⟩, ?_⟩
    rw [appended, if_pos rfl]
    exact hwrite _ h.synced
  · have hrot := (hwrite _ le_rfl).rotate (p.append_ne_nil _) hclock
    obtain ⟨rfl, rfl⟩ := Prod.mk.inj hw
    refine ⟨init ++ [p.append ⟨p.next, nanos, txn, op⟩],
      ⟨(p.append ⟨p.next, nanos, txn, op⟩).next, headerNanos, []⟩, ?_⟩
    rw [appended, if_neg (by simp [OpenWal.rotate])]
    exact hrot

theorem removable_lt (s : SegmentInfo) (ss : List SegmentInfo) (through : ℕ) :
    OpenWal.removable through (s :: ss) ≤ ss.length := by
  induction ss generalizing s with
  | nil => exact le_rfl
  | cons next rest ih =>
    rw [OpenWal.removable]
    by_cases hle : next.firstLsn ≤ (through + 1) % 2 ^ 64
    · rw [if_pos hle]
      exact Nat.succ_le_succ (ih next)
    · rw [if_neg hle]
      exact Nat.zero_le _

/-- What is left starts at or before the LSN after `through`. -/
theorem removable_head {through : ℕ} {ss : List SegmentInfo}
    (h : 0 < OpenWal.removable through ss) :
    ∃ s rest, ss.drop (OpenWal.removable through ss) = s :: rest ∧ s.firstLsn ≤ through + 1 := by
  induction ss with
  | nil => exact absurd h (by simp [OpenWal.removable])
  | cons seg ss ih =>
    cases ss with
    | nil => exact absurd h (by simp [OpenWal.removable])
    | cons next rest =>
      rw [OpenWal.removable] at h ⊢
      by_cases hle : next.firstLsn ≤ (through + 1) % 2 ^ 64
      · rw [if_pos hle, List.drop_succ_cons]
        by_cases hz : OpenWal.removable through (next :: rest) = 0
        · rw [hz]
          exact ⟨next, rest, rfl, hle.trans (Nat.mod_le _ _)⟩
        · exact ih (Nat.pos_of_ne_zero hz)
      · rw [if_neg hle] at h
        exact absurd h (Nat.lt_irrefl 0)

/-- Dropping leading segments moves their entries to the discarded ones. -/
theorem drop {gone kept rest : List Piece} {q b : Piece} (h : Holds r older (q :: gone ++ kept) p)
    (hb : kept ++ [p] = b :: rest) {through : ℕ} (hthrough : b.firstLsn ≤ through + 1) :
    Holds ⟨{ r.wal with segments := kept.map Piece.info ++ [p.info], startLsn := b.firstLsn },
        r.dir.filter (fun f => f.name ∉ (q :: gone).map (·.firstLsn)), r.synced, r.history,
        max r.through through⟩
      (older ++ (q :: gone).flatMap (·.entries)) kept p := by
  have hch : Chained (q :: gone ++ (kept ++ [p])) := by
    rw [← List.append_assoc]
    exact h.chained
  have hfirst : q.firstLsn = older.length + 1 := by simpa using h.first
  -- The piece that comes first now starts where the dropped entries end.
  have hstart : b.firstLsn = (older ++ (q :: gone).flatMap (·.entries)).length + 1 := by
    rw [hb] at hch
    have hpre : Chained (q :: (gone ++ [b])) := by
      have hsplit : q :: gone ++ b :: rest = (q :: (gone ++ [b])) ++ rest := by simp
      rw [hsplit] at hch
      exact hch.append.1
    have hlast := hpre.firstLsn_last
    rw [List.length_append]
    omega
  have hpos : 0 < q.entries.length := by
    apply List.length_pos_of_ne_nil
    cases gone with
    | nil =>
      rw [hb] at hch
      exact (List.isChain_cons_cons.mp hch.follows).1.1
    | cons a gone => exact (List.isChain_cons_cons.mp hch.follows).1.1
  constructor
  · exact hch.append.2
  · have hasc := List.pairwise_append.mp hch.ascending
    have hgone : ((q :: gone).map Piece.file).filter
        (fun f => f.name ∉ (q :: gone).map (·.firstLsn)) = [] := by
      rw [List.filter_eq_nil_iff]
      intro f hf
      obtain ⟨a, ha, rfl⟩ := List.mem_map.mp hf
      have hname : a.file.name ∈ (q :: gone).map (·.firstLsn) := List.mem_map.mpr ⟨a, ha, rfl⟩
      simp only [hname, not_true_eq_false, decide_false, Bool.false_eq_true, not_false_eq_true]
    have hkept : ((kept ++ [p]).map Piece.file).filter
        (fun f => f.name ∉ (q :: gone).map (·.firstLsn)) = (kept ++ [p]).map Piece.file := by
      rw [List.filter_eq_self]
      intro f hf
      obtain ⟨a, ha, rfl⟩ := List.mem_map.mp hf
      apply decide_eq_true
      intro hmem
      obtain ⟨g, hg, heq⟩ := List.mem_map.mp hmem
      exact (hasc.2.2 g hg a ha).ne heq
    have hfilter := h.files.filter (fun f => f.name ∉ (q :: gone).map (·.firstLsn))
    rw [List.map_append, List.append_assoc, ← List.map_singleton, ← List.map_append,
      List.filter_append, hgone, hkept, List.nil_append, List.map_append] at hfilter
    exact hfilter
  · rfl
  · exact h.nextLsn
  · rw [h.history, List.flatMap_append, ← List.append_assoc older]
  · apply lsns_le h.history_numbered
    rw [h.history, List.flatMap_append, ← List.append_assoc older, List.append_assoc]
    exact List.prefix_append _ _
  · rw [hb]
    exact congrArg some hstart
  · exact h.synced
  · rw [if_neg (by rw [List.length_append, List.flatMap_cons, List.length_append]; omega), ← hstart]
  · change _ ≤ max r.through through
    omega

theorem discard (h : Holds r older init p) (through : ℕ) :
    ∃ older' init', Holds (r.discarded through) older' init' p := by
  have hsegs : r.wal.segments = (init ++ [p]).map Piece.info := by
    rw [h.segments, List.map_append, List.map_singleton]
  by_cases hz : OpenWal.removable through r.wal.segments = 0
  · refine ⟨older, init, ?_⟩
    rw [discarded, OpenWal.discardBelow, if_pos hz]
    exact { h with through := h.through.trans (le_max_left _ _) }
  · have hpos := Nat.pos_of_ne_zero hz
    have hle : OpenWal.removable through r.wal.segments ≤ init.length := by
      obtain ⟨b, rest, hb⟩ : ∃ b rest, init ++ [p] = b :: rest :=
        List.exists_cons_of_ne_nil (by simp)
      have hlen := congrArg List.length hb
      have hlt := removable_lt b.info (rest.map Piece.info) through
      rw [hsegs, hb, List.map_cons]
      simp only [List.length_append, List.length_cons, List.length_nil, List.length_map] at hlen hlt
      omega
    obtain ⟨s, rest, hdrop, hs⟩ := removable_head hpos
    rw [discarded, OpenWal.discardBelow, if_neg hz]
    generalize hn : OpenWal.removable through r.wal.segments = n at *
    have hkept : r.wal.segments.drop n = (init.drop n ++ [p]).map Piece.info := by
      rw [hsegs, ← List.map_drop, List.drop_append_of_le_length hle]
    have hgone : (r.wal.segments.take n).map (·.path) = (init.take n).map (·.firstLsn) := by
      rw [hsegs, ← List.map_take, List.take_append_of_le_length hle, List.map_map]
      rfl
    obtain ⟨b, rest', hb⟩ : ∃ b rest, init.drop n ++ [p] = b :: rest :=
      List.exists_cons_of_ne_nil (by simp)
    obtain ⟨q, gone, hq⟩ : ∃ q gone, init.take n = q :: gone := by
      apply List.exists_cons_of_ne_nil
      intro hnil
      have hlen := List.length_take_of_le hle
      rw [hnil, List.length_nil] at hlen
      omega
    have hinit : init = q :: gone ++ init.drop n := by rw [← hq, List.take_append_drop]
    have hbs : b.info = s := by
      rw [hkept, hb, List.map_cons] at hdrop
      exact (List.cons.inj hdrop).1
    have hfirst : b.firstLsn ≤ through + 1 := by
      rw [← hbs] at hs
      exact hs
    have hdropped := Holds.drop (hinit ▸ h) hb hfirst
    refine ⟨older ++ (q :: gone).flatMap (·.entries), init.drop n, ?_⟩
    rw [hkept, hgone, hq, hb]
    rw [← List.map_singleton, ← List.map_append, hb] at hdropped
    exact hdropped

theorem nextLsn_entries {p : Piece} (h : p.Sound) :
    ((OpenWal.lastLsnIn p.file.bytes).map (· + 1)).getD p.firstLsn = p.next := by
  have hl : p.header.length = segmentHeader := length_headerBytes _ _
  have hread : entriesIn p.file.bytes = p.entries := by
    rw [entriesIn, Piece.file, min_eq_left (by rw [List.length_append, hl]; omega),
      List.drop_left' hl, decodeFrames_frames h.loggable]
  have hlast : (p.entries.getLast?.map (·.lsn)) = (lsns p.entries).getLast? := by
    rw [lsns, List.getLast?_map]
  rw [OpenWal.lastLsnIn, hread, hlast, h.numbered, Piece.next]
  cases p.entries.length with
  | zero => rfl
  | succ n =>
    rw [List.range'_concat, List.getLast?_concat]
    simp [Nat.add_assoc]

/-- An open keeps the entries before the cut and numbers on from them. -/
theorem reopen (h : Holds r older init p) {n : ℕ} (nanos : ℕ) (hn : r.synced ≤ n) {dir : Directory}
    (hdir : dir.Perm (r.cutTo n)) : Holds (r.reopened n nanos dir) older init (p.cut n) := by
  have hseg := h.synced.trans hn
  have hcut := hdir.trans (h.cutTo n)
  have hreads := reads_cut h.chained hseg hcut
  have hchained := h.chained.replace (h.sound.cut n) rfl
  have hactive : OpenWal.activeOf ((init ++ [p.cut n]).map Piece.info) = p.info := by
    rw [List.map_append, OpenWal.activeOf, List.map_singleton, List.getLastD_concat]
    rfl
  have hcontents : dir.contents p.firstLsn = (p.cutFile n).bytes :=
    contents_of_mem (f := p.cutFile n) hreads.nodup (hcut.mem_iff.mpr (by simp))
  have hfile : (⟨(p.cutFile n).name, (p.cutFile n).bytes.take (p.cut n).file.bytes.length⟩ : SegmentFile)
      = (p.cut n).file := by
    rw [Piece.take_cutFile hseg]
    rfl
  have hfiles : (dir.setLen p.firstLsn (p.cut n).file.bytes.length).Perm
      (init.map Piece.file ++ [(p.cut n).file]) := by
    have hmap := map_files h.chained
      (fun f => if f.name = p.firstLsn then
        { f with bytes := f.bytes.take (p.cut n).file.bytes.length } else f)
      (fun f hf => if_neg hf) hcut
    rwa [if_pos (show (p.cutFile n).name = p.firstLsn from rfl), hfile] at hmap
  have hnames : ((dir.setLen p.firstLsn (p.cut n).file.bytes.length).map (·.name)).Nodup := by
    rw [(hfiles.map _).nodup_iff, ← List.map_singleton, ← List.map_append, List.map_map]
    exact nodup_firstLsn hchained.ascending
  have hkept : (dir.setLen p.firstLsn (p.cut n).file.bytes.length).contents p.firstLsn =
      (p.cut n).file.bytes :=
    contents_of_mem (f := (p.cut n).file) hnames (hfiles.mem_iff.mpr (by simp))
  have hhead : ((init ++ [p.cut n]).map Piece.info).head?.map (·.firstLsn) =
      some (older.length + 1) := by
    have hfirst := h.first
    cases init with
    | nil => exact hfirst
    | cons q init => exact hfirst
  have hopen : OpenWal.open dir nanos =
      (⟨(init ++ [p.cut n]).map Piece.info, (p.cut n).file.bytes.length, defaultSegmentBytes,
        (p.cut n).next, if older.length = 0 then 0 else older.length + 1⟩,
        dir.setLen p.firstLsn (p.cut n).file.bytes.length) := by
    rw [OpenWal.open, hreads.listSegments]
    dsimp only
    rw [if_neg (by simp), hactive]
    have hpath : p.info.path = p.firstLsn := rfl
    have hinfo : p.info.firstLsn = (p.cut n).firstLsn := rfl
    rw [hpath, hcontents, Piece.intactPrefixLen_cutFile h.sound hseg, hkept, hinfo,
      nextLsn_entries (h.sound.cut n), hhead, Option.getD_some]
    by_cases hz : older.length = 0
    · rw [if_pos (by omega), if_pos hz]
    · rw [if_neg (by omega), if_neg hz]
  rw [reopened, hopen]
  constructor
  · exact hchained
  · exact hfiles
  · exact List.map_append
  · rfl
  · exact h.surviving n
  · exact h.numbered
  · rw [List.head?_map, Option.map_map] at hhead
    exact hhead
  · have hl : (p.cut n).header.length = segmentHeader := length_headerBytes _ _
    have hlen : segmentHeader ≤ (p.cut n).file.bytes.length := by
      rw [Piece.file, List.length_append]
      omega
    exact le_min h.synced hlen
  · rfl
  · exact h.through

end Holds

theorem holds_start {nanos : ℕ} (hn : nanos < 2 ^ 64) : Holds (start nanos) [] [] ⟨1, nanos, []⟩ := by
  have hl : (headerBytes 1 nanos).length = segmentHeader := length_headerBytes _ _
  have hsound : Piece.Sound ⟨1, nanos, []⟩ :=
    ⟨hn, (by decide : 1 + 0 < 2 ^ 64), rfl, fun e he => absurd he (by simp)⟩
  have hfile : Piece.file ⟨1, nanos, []⟩ = ⟨1, headerBytes 1 nanos⟩ := by
    simp [Piece.file, Piece.header, frames]
  have hlen : intactPrefixLen (headerBytes 1 nanos) = (headerBytes 1 nanos).length := by
    rw [intactPrefixLen, if_neg (by omega), List.drop_of_length_le (by omega),
      intactLoop_none (nextPayload_short (by decide)), Nat.add_zero, hl]
  have hnext := Holds.nextLsn_entries hsound
  rw [hfile] at hnext
  have hopen : OpenWal.open [] nanos =
      (⟨[⟨1, nanos, 1⟩], (headerBytes 1 nanos).length, defaultSegmentBytes, 1, 0⟩,
        [⟨1, headerBytes 1 nanos⟩]) := by
    simp only [OpenWal.open, OpenWal.listSegments, List.filterMap_nil, List.mergeSort_nil,
      List.isEmpty_nil, if_true, OpenWal.createSegment, Directory.create, List.filter_nil,
      List.nil_append, OpenWal.activeOf, List.getLastD_cons, List.getLastD_nil, Directory.contents,
      List.find?_cons, decide_true, Option.map_some, Option.getD_some, Directory.setLen,
      List.map_cons, List.map_nil, hlen, List.take_length, List.head?_cons, le_refl]
    rw [hnext]
    rfl
  rw [start, hopen]
  constructor
  · exact ⟨fun q hq => (List.mem_singleton.mp hq) ▸ hsound, List.isChain_singleton _⟩
  · rw [hfile]
    exact List.Perm.refl _
  · rfl
  · rfl
  · rfl
  · rfl
  · rfl
  · exact le_rfl
  · rfl
  · exact Nat.zero_le 0

/-- One step keeps the invariant. -/
theorem Step.holds {r r' : LogRun} (hstep : Step r r') {older : List WalEntry} {init : List Piece}
    {p : Piece} (h : Holds r older init p) : ∃ older' init' p', Holds r' older' init' p' := by
  cases hstep with
  | append nanos headerNanos txn op lsn wal dir hentry hclock hlsn hok =>
    obtain ⟨init', p', h'⟩ := h.append hentry hclock hlsn hok
    exact ⟨older, init', p', h'⟩
  | sync =>
    have hl : p.header.length = segmentHeader := length_headerBytes _ _
    have hlen : segmentHeader ≤ p.file.bytes.length := by
      rw [Piece.file, List.length_append]
      omega
    exact ⟨older, init, p, { h with synced := by rw [h.activeFile]; exact hlen }⟩
  | setSegmentBytes n => exact ⟨older, init, p, { h with }⟩
  | discard through =>
    obtain ⟨older', init', h'⟩ := h.discard through
    exact ⟨older', init', p, h'⟩
  | reopen n nanos dir hsynced hlen hdir => exact ⟨older, init, p.cut n, h.reopen nanos hsynced hdir⟩

theorem Reachable.holds {r : LogRun} (h : Reachable r) : ∃ older init p, Holds r older init p := by
  induction h with
  | start nanos hclock => exact ⟨[], [], _, holds_start hclock⟩
  | step _ hstep ih =>
    obtain ⟨older, init, p, h⟩ := ih
    exact hstep.holds h

/-- What a log keeps. Entries are numbered without a gap, across reopens too, and
replay from a point not discarded gives the entries before a cut: at least those
that were synced, and none but those that were appended. -/
structure Retained (r : LogRun) : Prop where
  numbered : lsns r.history = List.range' 1 r.history.length
  nextLsn : r.wal.nextLsn = r.history.length + 1
  uncut : r.surviving r.activeFile.length = r.history
  startLsn : r.wal.startLsn ≤ r.through + 1
  synced (n : ℕ) (hn : r.synced ≤ n) : r.surviving r.synced <+: r.surviving n
  appended (n : ℕ) : r.surviving n <+: r.history
  replayed (n : ℕ) (hn : r.synced ≤ n) (dir : Directory) (hdir : dir.Perm (r.cutTo n)) (start : ℕ)
    (hstart : r.wal.startLsn ≤ start) :
    OpenWal.entriesFrom dir start = (r.surviving n).filter (start ≤ ·.lsn)
  continued (n : ℕ) (hn : r.synced ≤ n) (dir : Directory) (hdir : dir.Perm (r.cutTo n)) (nanos : ℕ) :
    (OpenWal.open dir nanos).1.nextLsn = (r.surviving n).length + 1
  undiscarded (n : ℕ) (hn : r.synced ≤ n) (dir : Directory) (hdir : dir.Perm (r.cutTo n)) :
    ∀ e ∈ r.surviving n, r.through < e.lsn → e ∈ OpenWal.entriesFrom dir (r.through + 1)

namespace Holds

variable {r : LogRun} {older : List WalEntry} {init : List Piece} {p : Piece}

theorem surviving_all (h : Holds r older init p) : r.surviving r.activeFile.length = r.history := by
  have hl : p.header.length = segmentHeader := length_headerBytes _ _
  rw [h.surviving, h.history, h.activeFile, Piece.cut, Piece.file, List.length_append, hl,
    Nat.add_sub_cancel_left, fitting_all le_rfl]

theorem surviving_mono (h : Holds r older init p) {m n : ℕ} (hmn : m ≤ n) :
    r.surviving m <+: r.surviving n := by
  rw [h.surviving, h.surviving]
  exact (List.prefix_append_right_inj _).mpr (fitting_mono (Nat.sub_le_sub_right hmn _) _)

theorem startLsn_le (h : Holds r older init p) : r.wal.startLsn ≤ r.through + 1 := by
  have hthrough := h.through
  rw [h.startLsn]
  by_cases hz : older.length = 0
  · rw [if_pos hz]
    exact Nat.zero_le _
  · rw [if_neg hz]
    omega

end Holds

/-- Every run of the log keeps what it acknowledged, in order. -/
theorem retained {r : LogRun} (h : Reachable r) : Retained r := by
  obtain ⟨older, init, p, h⟩ := h.holds
  constructor
  · exact h.history_numbered
  · exact h.nextLsn_eq
  · exact h.surviving_all
  · exact h.startLsn_le
  · intro n hn
    exact h.surviving_mono hn
  · exact h.surviving_le
  · intro n hn dir hdir start hstart
    exact h.entriesFrom hn hdir hstart
  · intro n hn dir hdir nanos
    exact (h.reopen nanos hn hdir).nextLsn_eq
  · intro n hn dir hdir e he hlt
    rw [h.entriesFrom hn hdir h.startLsn_le, List.mem_filter]
    exact ⟨he, decide_eq_true hlt⟩

/-- A synced entry is kept and one torn by a crash is not. -/
theorem retained_torn :
    let e : WalEntry := ⟨1, 5, 0, .commit 3⟩
    let a := (start 0).wal.append (start 0).dir 5 0 0 (.commit 3)
    let r₁ := (start 0).appended e a.2.1 a.2.2
    let r₂ : LogRun := { r₁ with synced := r₁.activeFile.length }
    let b := r₂.wal.append r₂.dir 6 0 0 (.commit 4)
    let r₃ := r₂.appended ⟨2, 6, 0, .commit 4⟩ b.2.1 b.2.2
    let r₄ := r₃.reopened 100 0 (r₃.cutTo 100)
    Retained r₄ ∧ r₄.history = [e] := by
  intro e a r₁ r₂ b r₃ r₄
  have h₁ : Reachable r₁ := by
    apply (Reachable.start 0 (by decide)).append
    · exact ⟨by decide +kernel, by decide, by decide, (by decide : 3 < 2 ^ 64), by decide +kernel⟩
    · decide
    · decide +kernel
    · decide +kernel
  have h₂ : Reachable r₂ := h₁.step (.sync r₁)
  have h₃ : Reachable r₃ := by
    apply h₂.append
    · exact ⟨by decide +kernel, by decide, by decide, (by decide : 4 < 2 ^ 64), by decide +kernel⟩
    · decide
    · decide +kernel
    · decide +kernel
  have h₄ : Reachable r₄ := by
    apply h₃.step
    exact Step.reopen _ 100 0 _ (by decide +kernel) (by decide +kernel) (List.Perm.refl _)
  exact ⟨retained h₄, by decide +kernel⟩

end LogRun

end Adabt.Storage
