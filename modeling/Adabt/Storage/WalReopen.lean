import Adabt.Library.Program
import Adabt.Storage.WalRuns
import Adabt.Storage.WalTail

/-! # Appending behind a damaged segment

The active segment may hold any bytes when the log is opened. The tail is cut
behind the frames whose length and checksum hold, and the next number is taken
from the entries that read. Appends made afterwards are read back where the two
routines stop at the same place and the numbers that read are below the next. -/

set_option autoImplicit false

namespace Adabt.Storage
open Adabt.Core Adabt.Library

/-! ## Files -/

theorem readSegmentHeader_congr {a b : Bytes} (h : a.take segmentHeader = b.take segmentHeader) :
    readSegmentHeader a = readSegmentHeader b := by
  rw [readSegmentHeader, readSegmentHeader, h]

theorem length_of_header {file : Bytes} {r : ℕ × ℕ} (h : readSegmentHeader file = some r) :
    segmentHeader ≤ file.length := by
  unfold readSegmentHeader at h
  dsimp only at h
  split_ifs at h with hshort
  rw [List.length_take] at hshort
  omega

theorem entriesIn_eq {file : Bytes} (h : segmentHeader ≤ file.length) :
    entriesIn file = decodeFrames (file.drop segmentHeader) := by
  rw [entriesIn, min_eq_left h]

namespace Listed

variable {dir : Directory} {ps qs : List Piece} {q : Piece}

/-- The files around that of one piece. -/
theorem split (h : Listed dir (ps ++ q :: qs)) : ∃ fs f gs junk, dir.Perm (fs ++ f :: gs ++ junk) ∧
    List.Forall₂ Piece.Shown ps fs ∧ q.Shown f ∧ List.Forall₂ Piece.Shown qs gs ∧
    (∀ g ∈ junk, readSegmentHeader g.bytes = none) ∧
    ∀ g ∈ fs ++ gs ++ junk, g.name ≠ q.firstLsn := by
  obtain ⟨all, junk, hperm, hshown, hjunk⟩ := h.files
  obtain ⟨fs, rest, rfl, hfs, hrest⟩ := forall₂_append_left hshown
  obtain ⟨f, gs, hf, hgs, rfl⟩ := List.forall₂_cons_left_iff.mp hrest
  refine ⟨fs, f, gs, junk, hperm, hfs, hf, hgs, hjunk, fun g hg => ?_⟩
  have hnodup := ((hperm.map (·.name)).nodup_iff).mp h.nodup
  have hmoved : (fs ++ f :: gs ++ junk).Perm (f :: (fs ++ gs ++ junk)) := by
    rw [List.append_assoc, List.append_assoc, List.cons_append]
    exact List.perm_middle
  have hcons := ((hmoved.map (·.name)).nodup_iff).mp hnodup
  rw [List.map_cons, List.nodup_cons, hf.name] at hcons
  exact fun heq => hcons.1 (heq ▸ List.mem_map_of_mem hg)

theorem contents_split (h : Listed dir (ps ++ q :: qs)) {f : SegmentFile} (hf : f ∈ dir)
    (hname : f.name = q.firstLsn) : dir.contents q.firstLsn = f.bytes :=
  hname ▸ contents_of_mem h.nodup hf

theorem names_rewrite (dir : Directory) (n : ℕ) (g : Bytes → Bytes) :
    (dir.map fun f => if f.name = n then { f with bytes := g f.bytes } else f).map (·.name) =
      dir.map (·.name) := by
  rw [List.map_map]
  apply List.map_congr_left
  intro f _
  dsimp only [Function.comp]
  split_ifs <;> rfl

/-- Changing the bytes of one piece's file changes what that piece holds. -/
theorem rewrite (h : Listed dir (ps ++ q :: qs)) (g : Bytes → Bytes) {es : List WalEntry}
    (hheader : readSegmentHeader (g (dir.contents q.firstLsn)) = some (q.firstLsn, q.nanos))
    (hread : entriesIn (g (dir.contents q.firstLsn)) = es) :
    Listed (dir.map fun f => if f.name = q.firstLsn then { f with bytes := g f.bytes } else f)
      (ps ++ { q with entries := es } :: qs) := by
  obtain ⟨fs, f, gs, junk, hperm, hfs, hf, hgs, hjunk, hother⟩ := h.split
  have hc := h.contents_split (hperm.mem_iff.mpr (by simp)) hf.name
  have hsame : ∀ l : List SegmentFile, l ⊆ fs ++ gs ++ junk →
      l.map (fun f => if f.name = q.firstLsn then { f with bytes := g f.bytes } else f) = l := by
    intro l hl
    conv_rhs => rw [← List.map_id l]
    exact List.map_congr_left fun x hx => if_neg (hother x (hl hx))
  constructor
  · refine ⟨fs ++ { f with bytes := g f.bytes } :: gs, junk, ?_, ?_, hjunk⟩
    · have hmap := hperm.map
        fun f => if f.name = q.firstLsn then { f with bytes := g f.bytes } else f
      rwa [List.map_append, List.map_append, List.map_cons, if_pos hf.name,
        hsame fs (fun x hx => by simp [hx]), hsame gs (fun x hx => by simp [hx]),
        hsame junk (fun x hx => by simp [hx])] at hmap
    · refine List.rel_append hfs (.cons ⟨hf.name, ?_, ?_⟩ hgs)
      · rw [← hc]
        exact hheader
      · rw [← hc]
        exact hread
  · rw [names_rewrite]
    exact h.nodup
  · have hasc := h.ascending
    rw [List.pairwise_append, List.pairwise_cons] at hasc ⊢
    refine ⟨hasc.1, hasc.2.1, fun a ha b hb => ?_⟩
    rcases List.mem_cons.mp hb with rfl | hb
    · exact hasc.2.2 a ha q List.mem_cons_self
    · exact hasc.2.2 a ha b (List.mem_cons_of_mem q hb)

theorem contents_rewrite (h : Listed dir (ps ++ q :: qs)) (g : Bytes → Bytes) :
    Directory.contents (dir.map fun f =>
      if f.name = q.firstLsn then { f with bytes := g f.bytes } else f) q.firstLsn =
      g (dir.contents q.firstLsn) := by
  obtain ⟨f, hf, hs, hc⟩ := h.contents (p := q) (by simp)
  have hmem := List.mem_map_of_mem (f := fun f : SegmentFile =>
    if f.name = q.firstLsn then { f with bytes := g f.bytes } else f) hf
  rw [if_pos hs.name] at hmem
  have hnodup := names_rewrite dir q.firstLsn g ▸ h.nodup
  have hcontents := contents_of_mem hnodup hmem
  rw [hc]
  exact hs.name ▸ hcontents

/-- A new segment takes its place among the others. -/
theorem insert (h : Listed dir (ps ++ qs)) {k nanos : ℕ} (hk : k < 2 ^ 64) (hn : nanos < 2 ^ 64)
    (hbelow : ∀ p ∈ ps, p.firstLsn < k) (habove : ∀ p ∈ qs, k < p.firstLsn) :
    Listed (dir.create k (headerBytes k nanos)) (ps ++ ⟨k, nanos, []⟩ :: qs) := by
  obtain ⟨all, junk, hperm, hshown, hjunk⟩ := h.files
  obtain ⟨fs, gs, rfl, hfs, hgs⟩ := forall₂_append_left hshown
  have hnew : Piece.Shown ⟨k, nanos, []⟩ ⟨k, headerBytes k nanos⟩ := by
    have hlen := length_headerBytes k nanos
    have hread := readSegmentHeader_file hk hn []
    rw [List.append_nil] at hread
    refine ⟨rfl, hread, ?_⟩
    rw [entriesIn_eq hlen.ge, List.drop_of_length_le hlen.le]
    rfl
  have hkeep : ∀ {rs : List Piece} {l : List SegmentFile}, List.Forall₂ Piece.Shown rs l →
      (∀ p ∈ rs, p.firstLsn ≠ k) → l.filter (·.name ≠ k) = l := by
    intro rs l hl hne
    rw [List.filter_eq_self]
    intro f hf
    obtain ⟨p, hp, hs⟩ := forall₂_mem_right hl hf
    simpa [hs.name] using hne p hp
  have hfiles : (dir.filter (·.name ≠ k)).Perm (fs ++ gs ++ junk.filter (·.name ≠ k)) := by
    have hfilter := hperm.filter (·.name ≠ k)
    rwa [List.filter_append, List.filter_append, hkeep hfs fun p hp => (hbelow p hp).ne,
      hkeep hgs fun p hp => (habove p hp).ne'] at hfilter
  constructor
  · refine ⟨fs ++ ⟨k, headerBytes k nanos⟩ :: gs, junk.filter (·.name ≠ k), ?_,
      List.rel_append hfs (.cons hnew hgs), fun f hf => hjunk f (List.mem_of_mem_filter hf)⟩
    rw [Directory.create]
    refine (hfiles.append_right _).trans ?_
    rw [List.append_assoc fs, List.append_assoc, List.append_assoc fs, List.cons_append]
    exact (List.perm_append_singleton _ _).append_left fs
  · rw [Directory.create, List.map_append, List.nodup_append]
    refine ⟨h.nodup.sublist (List.filter_sublist.map _), List.nodup_singleton _, ?_⟩
    intro a ha b hb
    obtain ⟨f, hf, rfl⟩ := List.mem_map.mp ha
    rw [List.mem_singleton.mp hb]
    simpa using (List.mem_filter.mp hf).2
  · have hasc := h.ascending
    rw [List.pairwise_append, List.pairwise_cons] at *
    refine ⟨hasc.1, ⟨habove, hasc.2.1⟩, fun a ha b hb => ?_⟩
    rcases List.mem_cons.mp hb with rfl | hb
    · exact hbelow a ha
    · exact hasc.2.2 a ha b hb

end Listed

/-! ## Appends and syncs -/

/-- An open log and what has been appended to it, in the order of the numbers. -/
structure Appending where
  wal : OpenWal
  dir : Directory
  appended : List WalEntry

inductive LogCall where
  | append (nanos headerNanos txn : ℕ) (op : WalOp)
  | sync

namespace LogCall

/-- The numbers are `u64`s and the payload is shorter than 4 GiB, so that its length
is what a frame says. -/
def InRange : LogCall → Prop
  | append nanos headerNanos txn op =>
    nanos < 2 ^ 64 ∧ headerNanos < 2 ^ 64 ∧ txn < 2 ^ 64 ∧ op.InRange ∧ 24 + op.encode.length < 2 ^ 32
  | sync => True

/-- A refused append leaves no entry. The files are those that a sync leaves. -/
def step (c : LogCall) (s : Appending) : Appending :=
  match c with
  | append nanos headerNanos txn op =>
    match s.wal.append s.dir nanos headerNanos txn op with
    | (.ok lsn, wal, dir) => ⟨wal, dir, s.appended ++ [⟨lsn, nanos, txn, op⟩]⟩
    | (.error _, wal, dir) => ⟨wal, dir, s.appended⟩
  | sync => s

end LogCall

theorem length_encodePayload (lsn nanos txn : ℕ) (op : WalOp) :
    (WalEntry.encodePayload ⟨lsn, nanos, txn, op⟩).length = 24 + op.encode.length := by
  simp [WalEntry.encodePayload]
  omega

/-- The log after an append that was not refused. -/
structure Wrote (s : Appending) (e : WalEntry) (headerNanos : ℕ) (s' : Appending) : Prop where
  lsn : e.lsn = s.wal.nextLsn
  loggable : e.Loggable
  appended : s'.appended = s.appended ++ [e]
  nextLsn : s'.wal.nextLsn = s.wal.nextLsn + 1
  segmentBytes : s'.wal.segmentBytes = s.wal.segmentBytes
  files : let dir := s.dir.append (OpenWal.activeOf s.wal.segments).path e.frame
    let active := s.wal.activeBytes + (8 + e.encodePayload.length)
    (active < s.wal.segmentBytes ∧ s'.wal.segments = s.wal.segments ∧ s'.dir = dir) ∨
    (s.wal.segmentBytes ≤ active ∧ s'.wal.activeBytes = segmentHeader ∧
      s'.wal.segments = s.wal.segments ++ [⟨s.wal.nextLsn + 1, headerNanos, s.wal.nextLsn + 1⟩] ∧
      s'.dir = dir.create (s.wal.nextLsn + 1) (headerBytes (s.wal.nextLsn + 1) headerNanos))

/-- An append in range writes its entry or is refused, and uses up its number. -/
theorem append_step {s : Appending} {nanos headerNanos txn : ℕ} {op : WalOp}
    (h : (LogCall.append nanos headerNanos txn op).InRange) (hroom : s.wal.nextLsn + 1 < 2 ^ 64) :
    (24 + op.encode.length ≤ maxEntry ∧ Wrote s ⟨s.wal.nextLsn, nanos, txn, op⟩ headerNanos
      ((LogCall.append nanos headerNanos txn op).step s)) ∨
    (maxEntry < 24 + op.encode.length ∧ (LogCall.append nanos headerNanos txn op).step s =
      { s with wal := { s.wal with nextLsn := s.wal.nextLsn + 1 } }) := by
  obtain ⟨hnanos, hheader, htxn, hop, hlen⟩ := h
  have hpayload := length_encodePayload s.wal.nextLsn nanos txn op
  have hnext := Nat.mod_eq_of_lt hroom
  by_cases hsize : 24 + op.encode.length ≤ maxEntry
  · left
    have hnot : ¬ maxEntry < (WalEntry.encodePayload ⟨s.wal.nextLsn, nanos, txn, op⟩).length
        % 2 ^ 32 := by
      rw [hpayload, Nat.mod_eq_of_lt hlen]
      omega
    refine ⟨hsize, ?_⟩
    have hloggable : WalEntry.Loggable ⟨s.wal.nextLsn, nanos, txn, op⟩ :=
      ⟨Nat.lt_of_succ_lt hroom, hnanos, htxn, hop, hpayload ▸ hsize⟩
    rw [LogCall.step, OpenWal.append]
    dsimp only
    rw [if_neg hnot, hnext]
    split_ifs with hfull
    · exact ⟨rfl, hloggable, rfl, rfl, rfl, .inr ⟨hfull, rfl, rfl, rfl⟩⟩
    · exact ⟨rfl, hloggable, rfl, rfl, rfl, .inl ⟨Nat.lt_of_not_le hfull, rfl, rfl⟩⟩
  · right
    have hlt : maxEntry < (WalEntry.encodePayload ⟨s.wal.nextLsn, nanos, txn, op⟩).length
        % 2 ^ 32 := by
      rw [hpayload, Nat.mod_eq_of_lt hlen]
      omega
    refine ⟨by omega, ?_⟩
    rw [LogCall.step, OpenWal.append]
    dsimp only
    rw [if_pos hlt, hnext]

/-! ## A log that reads back what is appended -/

/-- The bytes of a segment file hold these entries, and what is written behind them
is read after them. -/
structure Holding (file : Bytes) (es : List WalEntry) : Prop where
  header : segmentHeader ≤ file.length
  whole : Whole (file.drop segmentHeader) es

theorem Holding.read {file : Bytes} {es : List WalEntry} (h : Holding file es) :
    entriesIn file = es := by
  have hread := h.whole []
  rwa [List.append_nil, decodeFrames_none (show readFrame [] = none from rfl), List.append_nil,
    ← entriesIn_eq h.header] at hread

theorem Holding.header_only (k nanos : ℕ) : Holding (headerBytes k nanos) [] := by
  have hlen := length_headerBytes k nanos
  refine ⟨hlen.ge, ?_⟩
  rw [List.drop_of_length_le hlen.le]
  exact Whole.nil

theorem Holding.append {file : Bytes} {es : List WalEntry} (h : Holding file es) {e : WalEntry}
    (he : e.Loggable) : Holding (file ++ e.frame) (es ++ [e]) := by
  constructor
  · rw [List.length_append]
    exact h.header.trans (Nat.le_add_right _ _)
  · rw [List.drop_append_of_le_length h.header]
    exact h.whole.append he

/-- The files read as what was there before and what was appended, the active segment
can be written behind, and the numbers are apart and below the next. -/
structure Going (before : List WalEntry) (s : Appending) (ps : List Piece) (q : Piece) : Prop where
  listed : Listed s.dir (ps ++ [q])
  holding : Holding (s.dir.contents q.firstLsn) q.entries
  segments : s.wal.segments = (ps ++ [q]).map Piece.info
  first : q.firstLsn ≤ s.wal.nextLsn
  entries : (ps ++ [q]).flatMap (·.entries) = before ++ s.appended
  apart : (lsns (before ++ s.appended)).Nodup
  below : ∀ e ∈ before ++ s.appended, e.lsn < s.wal.nextLsn

namespace Going

variable {before : List WalEntry} {s s' : Appending} {ps : List Piece} {q : Piece}

theorem entriesFrom (h : Going before s ps q) :
    OpenWal.entriesFrom s.dir 0 = before ++ s.appended := by
  rw [h.listed.entriesFrom_zero, h.entries]

theorem active (h : Going before s ps q) : OpenWal.activeOf s.wal.segments = q.info := by
  rw [h.segments, OpenWal.activeOf, List.map_append, List.map_singleton, List.getLastD_concat]

/-- The file of the active segment with one frame behind. -/
theorem written (h : Going before s ps q) {e : WalEntry} (he : e.Loggable) :
    Listed (s.dir.append q.firstLsn e.frame) (ps ++ [q.append e]) ∧
      Holding ((s.dir.append q.firstLsn e.frame).contents q.firstLsn) (q.entries ++ [e]) := by
  have hholding := h.holding.append he
  obtain ⟨f, -, hs, hc⟩ := h.listed.contents (p := q) (by simp)
  constructor
  · apply h.listed.rewrite (· ++ e.frame)
    · rw [← hs.header, hc]
      apply readSegmentHeader_congr
      exact List.take_append_of_le_length (length_of_header hs.header)
    · exact hholding.read
  · rw [show (s.dir.append q.firstLsn e.frame).contents q.firstLsn =
      s.dir.contents q.firstLsn ++ e.frame from h.listed.contents_rewrite (· ++ e.frame)]
    exact hholding

theorem wrote (h : Going before s ps q) {e : WalEntry} {headerNanos : ℕ} (hw : Wrote s e headerNanos s')
    (hclock : headerNanos < 2 ^ 64) (hroom : s.wal.nextLsn + 1 < 2 ^ 64) :
    ∃ ps' q', Going before s' ps' q' := by
  obtain ⟨hlisted, hholding⟩ := h.written hw.loggable
  have hpath : (OpenWal.activeOf s.wal.segments).path = q.firstLsn := by rw [h.active]; rfl
  have hfiles := hw.files
  rw [hpath] at hfiles
  have hnumber := hw.lsn
  have hfirst := h.first
  have hentries : (ps ++ [q.append e]).flatMap (·.entries) = before ++ s'.appended := by
    have hold := h.entries
    rw [List.flatMap_append, List.flatMap_singleton] at hold ⊢
    rw [hw.appended, ← List.append_assoc before, ← hold, List.append_assoc]
    rfl
  have hapart : (lsns (before ++ s'.appended)).Nodup := by
    rw [hw.appended, ← List.append_assoc, lsns_append, List.nodup_append]
    refine ⟨h.apart, List.nodup_singleton _, fun a ha b hb => ?_⟩
    obtain ⟨x, hx, rfl⟩ := List.mem_map.mp ha
    have hb : b = e.lsn := List.mem_singleton.mp hb
    rw [hb, hnumber]
    exact (h.below x hx).ne
  have hbelow : ∀ x ∈ before ++ s'.appended, x.lsn < s'.wal.nextLsn := by
    intro x hx
    rw [hw.appended, ← List.append_assoc] at hx
    rw [hw.nextLsn]
    rcases List.mem_append.mp hx with hx | hx
    · exact Nat.lt_succ_of_lt (h.below x hx)
    · rw [List.mem_singleton.mp hx, hnumber]
      exact Nat.lt_succ_self _
  rcases hfiles with ⟨-, hsegments, hdir⟩ | ⟨-, -, hsegments, hdir⟩
  · refine ⟨ps, q.append e, ?_, ?_, ?_, ?_, hentries, hapart, hbelow⟩
    · exact hdir ▸ hlisted
    · exact hdir ▸ hholding
    · rw [hsegments, h.segments, List.map_append, List.map_append]
      rfl
    · rw [hw.nextLsn]
      exact Nat.le_succ_of_le hfirst
  · have hins := hlisted
    rw [← List.append_nil (ps ++ [q.append e])] at hins
    have hall : ∀ p ∈ ps ++ [q.append e], p.firstLsn < s.wal.nextLsn + 1 := by
      intro p hp
      rcases List.mem_append.mp hp with hp | hp
      · have hlt := (List.pairwise_append.mp h.listed.ascending).2.2 p hp q (by simp)
        omega
      · rw [List.mem_singleton.mp hp]
        exact Nat.lt_succ_of_le hfirst
    have hnew := hins.insert hroom hclock hall fun p hp => absurd hp List.not_mem_nil
    refine ⟨ps ++ [q.append e], ⟨s.wal.nextLsn + 1, headerNanos, []⟩, ?_, ?_, ?_, ?_, ?_, hapart,
      hbelow⟩
    · exact hdir ▸ hnew
    · have hmem : (⟨s.wal.nextLsn + 1, headerBytes (s.wal.nextLsn + 1) headerNanos⟩ : SegmentFile) ∈
          s'.dir := by
        rw [hdir]
        exact List.mem_append_right _ (List.mem_singleton_self _)
      have hc : s'.dir.contents (s.wal.nextLsn + 1) = headerBytes (s.wal.nextLsn + 1) headerNanos :=
        contents_of_mem (hdir ▸ hnew.nodup) hmem
      rw [hc]
      exact Holding.header_only _ _
    · rw [hsegments, h.segments, List.map_append, List.map_append, List.map_append]
      rfl
    · rw [hw.nextLsn]
    · rw [List.flatMap_append, hentries]
      exact List.append_nil _

/-- One call. -/
theorem step (h : Going before s ps q) {c : LogCall} (hc : c.InRange)
    (hroom : s.wal.nextLsn + 1 < 2 ^ 64) :
    ∃ ps' q', Going before (c.step s) ps' q' ∧ (c.step s).wal.nextLsn ≤ s.wal.nextLsn + 1 := by
  cases c with
  | sync => exact ⟨ps, q, h, Nat.le_succ _⟩
  | append nanos headerNanos txn op =>
    rcases append_step hc hroom with ⟨-, hw⟩ | ⟨-, hrefused⟩
    · obtain ⟨ps', q', hgoing⟩ := h.wrote hw hc.2.1 hroom
      exact ⟨ps', q', hgoing, hw.nextLsn.le⟩
    · rw [hrefused]
      refine ⟨ps, q, ⟨h.listed, h.holding, h.segments, Nat.le_succ_of_le h.first, h.entries, h.apart,
        fun e he => Nat.lt_succ_of_lt (h.below e he)⟩, le_rfl⟩

/-- Any calls there are numbers left for. -/
theorem run (h : Going before s ps q) {cs : List LogCall} (hcs : ∀ c ∈ cs, c.InRange)
    (hroom : s.wal.nextLsn + cs.length < 2 ^ 64) :
    ∃ ps' q', Going before (Library.run LogCall.step s cs) ps' q' := by
  induction cs generalizing s ps q with
  | nil => exact ⟨ps, q, h⟩
  | cons c cs ih =>
    rw [List.length_cons] at hroom
    obtain ⟨ps', q', hgoing, hnext⟩ := h.step (hcs c List.mem_cons_self) (by omega)
    exact ih hgoing (fun c' hc' => hcs c' (List.mem_cons_of_mem c hc')) (by omega)

end Going

/-! ## Opening -/

/-- The number a log goes on with behind the entries of its last segment. -/
def Piece.goesOn (q : Piece) : ℕ := (q.entries.getLast?.map (·.lsn + 1)).getD q.firstLsn

/-- What the active segment keeps when it is opened. -/
def keptTail (file : Bytes) : Bytes :=
  file.take (segmentHeader + intactLen (file.drop segmentHeader))

theorem keptTail_eq {file : Bytes} (h : segmentHeader ≤ file.length) : keptTail file =
    file.take segmentHeader ++
      (file.drop segmentHeader).take (intactLen (file.drop segmentHeader)) := by
  have hhead : (file.take segmentHeader).length = segmentHeader := by
    rw [List.length_take, min_eq_left h]
  have hsplit : (file.take segmentHeader ++ file.drop segmentHeader).take
      ((file.take segmentHeader).length + intactLen (file.drop segmentHeader)) =
      file.take segmentHeader ++
        (file.drop segmentHeader).take (intactLen (file.drop segmentHeader)) :=
    List.take_length_add_append _
  rwa [List.take_append_drop, hhead] at hsplit

theorem intactPrefixLen_eq {file : Bytes} (h : segmentHeader ≤ file.length) :
    intactPrefixLen file = segmentHeader + intactLen (file.drop segmentHeader) := by
  rw [intactPrefixLen, if_neg (by omega), intactLoop_fuel (by rw [List.length_drop]; omega)]

/-- The log opened on a directory whose last segment is `q`. -/
structure Opened (dir : Directory) (ps : List Piece) (q : Piece) (o : OpenWal × Directory) : Prop where
  files : o.2 = dir.map fun f => if f.name = q.firstLsn then
    { f with bytes := f.bytes.take (segmentHeader + intactLen ((dir.contents q.firstLsn).drop segmentHeader)) }
    else f
  listed : Listed o.2 (ps ++ [q])
  contents : o.2.contents q.firstLsn = keptTail (dir.contents q.firstLsn)
  segments : o.1.segments = (ps ++ [q]).map Piece.info
  nextLsn : o.1.nextLsn = q.goesOn
  segmentBytes : o.1.segmentBytes = defaultSegmentBytes

theorem opened {dir : Directory} {ps : List Piece} {q : Piece} (h : Listed dir (ps ++ [q]))
    (nanos : ℕ) : Opened dir ps q (OpenWal.open dir nanos) := by
  obtain ⟨f, -, hs, hc⟩ := h.contents (p := q) (by simp)
  have hlen : segmentHeader ≤ (dir.contents q.firstLsn).length := hc ▸ length_of_header hs.header
  have hgood := intactPrefixLen_eq hlen
  have hkept := keptTail_eq hlen
  have hheader : readSegmentHeader (keptTail (dir.contents q.firstLsn)) =
      some (q.firstLsn, q.nanos) := by
    rw [← hs.header, ← hc, hkept]
    apply readSegmentHeader_congr
    exact List.take_left' (by rw [List.length_take, min_eq_left hlen])
  have hread : entriesIn (keptTail (dir.contents q.firstLsn)) = q.entries := by
    rw [entriesIn_eq (length_of_header hheader), hkept,
      List.drop_left' (by rw [List.length_take, min_eq_left hlen]), decodeFrames_cut,
      ← entriesIn_eq hlen, hc, hs.entries]
  have hlisted := h.rewrite (fun b => b.take (segmentHeader +
    intactLen ((dir.contents q.firstLsn).drop segmentHeader))) hheader hread
  have hcontents := h.contents_rewrite (fun b => b.take (segmentHeader +
    intactLen ((dir.contents q.firstLsn).drop segmentHeader)))
  have hactive : OpenWal.activeOf (OpenWal.listSegments dir) = q.info := by
    rw [h.listSegments, OpenWal.activeOf, List.map_append, List.map_singleton, List.getLastD_concat]
  have hne : (OpenWal.listSegments dir).isEmpty = false := by
    rw [h.listSegments, List.map_append]
    simp
  have hopen : OpenWal.open dir nanos =
      ({ segments := OpenWal.listSegments dir
         activeBytes := intactPrefixLen (dir.contents q.firstLsn)
         segmentBytes := defaultSegmentBytes
         nextLsn := ((OpenWal.lastLsnIn ((dir.setLen q.firstLsn
           (intactPrefixLen (dir.contents q.firstLsn))).contents q.firstLsn)).map (· + 1)).getD
             q.firstLsn
         startLsn := if (((OpenWal.listSegments dir).head?.map (·.firstLsn)).getD 0) ≤ 1 then 0
           else ((OpenWal.listSegments dir).head?.map (·.firstLsn)).getD 0 },
        dir.setLen q.firstLsn (intactPrefixLen (dir.contents q.firstLsn))) := by
    unfold OpenWal.open
    dsimp only
    rw [hne, if_neg Bool.false_ne_true]
    dsimp only
    rw [hactive]
    rfl
  rw [hopen, hgood]
  refine ⟨rfl, hlisted, hcontents, h.listSegments, ?_, rfl⟩
  dsimp only
  rw [show (dir.setLen q.firstLsn (segmentHeader +
    intactLen ((dir.contents q.firstLsn).drop segmentHeader))).contents q.firstLsn =
    keptTail (dir.contents q.firstLsn) from hcontents, OpenWal.lastLsnIn, hread, Piece.goesOn,
    Option.map_map]
  rfl

def reopened (dir : Directory) (nanos : ℕ) : Appending :=
  ⟨(OpenWal.open dir nanos).1, (OpenWal.open dir nanos).2, []⟩

theorem going_reopened {dir : Directory} {ps : List Piece} {q : Piece} (h : Listed dir (ps ++ [q]))
    (hholding : Holding (keptTail (dir.contents q.firstLsn)) q.entries)
    (hapart : (lsns ((ps ++ [q]).flatMap (·.entries))).Nodup)
    (hbelow : ∀ e ∈ (ps ++ [q]).flatMap (·.entries), e.lsn < q.goesOn)
    (hfirst : q.firstLsn ≤ q.goesOn) (nanos : ℕ) :
    Going ((ps ++ [q]).flatMap (·.entries)) (reopened dir nanos) ps q := by
  have ho := opened h nanos
  constructor
  · exact ho.listed
  · rw [show (reopened dir nanos).dir.contents q.firstLsn = _ from ho.contents]
    exact hholding
  · exact ho.segments
  · exact ho.nextLsn.symm ▸ hfirst
  · exact (List.append_nil _).symm
  · exact (List.append_nil _).symm ▸ hapart
  · rw [show (reopened dir nanos).wal.nextLsn = _ from ho.nextLsn]
    exact (List.append_nil ((ps ++ [q]).flatMap (·.entries))).symm ▸ hbelow

/-- A segment that was never damaged is kept whole. -/
theorem intactLen_frames {es : List WalEntry} (h : ∀ e ∈ es, e.Loggable) :
    intactLen (frames es) = (frames es).length := by
  induction es with
  | nil => rfl
  | cons e es ih =>
    have he := h e List.mem_cons_self
    have hcons : frames (e :: es) = e.frame ++ frames es := List.flatMap_cons
    rw [hcons, intactLen_some (nextPayload_frame he _), List.drop_left' (length_frame e),
      ih fun x hx => h x (List.mem_cons_of_mem e hx), List.length_append, length_frame]

theorem holding_file {q : Piece} (h : q.Sound) : Holding (keptTail q.file.bytes) q.entries := by
  have hlen : q.header.length = segmentHeader := length_headerBytes _ _
  have hdrop : q.file.bytes.drop segmentHeader = frames q.entries := List.drop_left' hlen
  have hsize : segmentHeader ≤ q.file.bytes.length := by
    rw [show q.file.bytes = q.header ++ frames q.entries from rfl, List.length_append, hlen]
    exact Nat.le_add_right _ _
  have hkept : keptTail q.file.bytes = q.file.bytes := by
    rw [keptTail, hdrop, intactLen_frames h.loggable]
    apply List.take_of_length_le
    rw [show q.file.bytes = q.header ++ frames q.entries from rfl, List.length_append, hlen]
  rw [hkept]
  refine ⟨hsize, ?_⟩
  rw [hdrop]
  exact decodeFrames_append h.loggable

theorem goesOn_of_sound {q : Piece} (h : q.Sound) : q.goesOn = q.next := by
  cases hlast : q.entries.getLast? with
  | none =>
    rw [List.getLast?_eq_none_iff] at hlast
    rw [Piece.goesOn, Piece.next, hlast]
    rfl
  | some e =>
    have hnumbers := congrArg List.getLast? h.numbered
    have hpos : 0 < q.entries.length := by
      rw [List.length_pos_iff]
      rintro hnil
      rw [hnil] at hlast
      cases hlast
    rw [lsns, List.getLast?_map, hlast, List.getLast?_range', if_neg hpos.ne'] at hnumbers
    rw [Piece.goesOn, hlast, Piece.next]
    have hlsn : e.lsn = q.firstLsn + q.entries.length - 1 := by simpa using hnumbers
    change e.lsn + 1 = _
    omega

/-! ## Whether appends are read back -/

/-- Replay gives the sealed entries, a prefix of those the active segment held and
every entry appended since, whatever is appended, and no number twice. -/
def ShowsAppends (older : List WalEntry) (bytes : Bytes) (s : Appending) : Prop :=
  ∃ kept, kept <+: entriesIn bytes ∧ ∀ cs : List LogCall, (∀ c ∈ cs, c.InRange) →
    s.wal.nextLsn + cs.length < 2 ^ 64 →
      OpenWal.entriesFrom (run LogCall.step s cs).dir 0 =
        older ++ kept ++ (run LogCall.step s cs).appended ∧
      (lsns (older ++ kept ++ (run LogCall.step s cs).appended)).Nodup

/-- Reading stops where no intact frame begins, and the numbers read are apart and
below the one the log goes on with, which is not below that of the segment. -/
structure ReadsOn (older : List WalEntry) (firstLsn : ℕ) (bytes : Bytes) : Prop where
  intact : nextPayload (unread (bytes.drop segmentHeader)) = none
  apart : (lsns (older ++ entriesIn bytes)).Nodup
  below : ∀ e ∈ older ++ entriesIn bytes, e.lsn < (Piece.mk firstLsn 0 (entriesIn bytes)).goesOn
  first : firstLsn ≤ (Piece.mk firstLsn 0 (entriesIn bytes)).goesOn

theorem Going.shows {older kept : List WalEntry} {bytes : Bytes} {s : Appending} {ps : List Piece}
    {q : Piece} (h : Going (older ++ kept) s ps q) (hkept : kept <+: entriesIn bytes) :
    ShowsAppends older bytes s := by
  refine ⟨kept, hkept, fun cs hcs hroom => ?_⟩
  obtain ⟨ps', q', hgoing⟩ := h.run hcs hroom
  exact ⟨hgoing.entriesFrom, hgoing.apart⟩

section Damaged

variable {init : List Piece} {p : Piece} (hlog : Chained (init ++ [p])) {bytes : Bytes}
  {dir : Directory} (hdir : dir.Perm (init.map Piece.file ++ [⟨p.firstLsn, bytes⟩]))
include hlog hdir

theorem nodup_damaged : (dir.map (·.name)).Nodup := by
  have hnames : (init.map Piece.file ++ [(⟨p.firstLsn, bytes⟩ : SegmentFile)]).map (·.name) =
      (init ++ [p]).map (·.firstLsn) := by
    rw [List.map_append, List.map_append, List.map_map]
    rfl
  rw [(hdir.map _).nodup_iff, hnames]
  exact nodup_firstLsn hlog.ascending

omit hdir in
theorem shown_sealed : List.Forall₂ Piece.Shown init (init.map Piece.file) := by
  rw [List.forall₂_map_right_iff, List.forall₂_same]
  exact fun q hq => (Piece.image_file (hlog.sound q (List.mem_append_left _ hq))).shown

/-- With a readable header the damaged file is the last segment. -/
theorem listed_damaged {t : ℕ} (hheader : readSegmentHeader bytes = some (p.firstLsn, t)) :
    Listed dir (init ++ [⟨p.firstLsn, t, entriesIn bytes⟩]) := by
  have hfiles : List.Forall₂ Piece.Shown (init ++ [⟨p.firstLsn, t, entriesIn bytes⟩])
      (init.map Piece.file ++ [⟨p.firstLsn, bytes⟩]) :=
    List.rel_append (shown_sealed hlog) (.cons ⟨rfl, hheader, rfl⟩ .nil)
  refine ⟨⟨_, [], by rwa [List.append_nil], hfiles, fun f hf => absurd hf List.not_mem_nil⟩,
    nodup_damaged hlog hdir, ?_⟩
  have hasc := hlog.ascending
  rw [List.pairwise_append] at hasc ⊢
  refine ⟨hasc.1, List.pairwise_singleton _ _, fun a ha b hb => ?_⟩
  rw [List.mem_singleton.mp hb]
  exact hasc.2.2 a ha p (List.mem_singleton_self p)

/-- Without one it is no segment at all. -/
theorem listed_unreadable (hheader : readSegmentHeader bytes = none) : Listed dir init := by
  refine ⟨⟨_, _, hdir, shown_sealed hlog, fun f hf => ?_⟩, nodup_damaged hlog hdir,
    (List.pairwise_append.mp hlog.ascending).1⟩
  rw [List.mem_singleton.mp hf]
  exact hheader

end Damaged

/-- Opening where no segment is readable begins the first one. -/
theorem going_empty {dir : Directory} (h : Listed dir []) {nanos : ℕ} (hclock : nanos < 2 ^ 64) :
    Going [] (reopened dir nanos) [] ⟨1, nanos, []⟩ := by
  have hins : Listed (dir.create 1 (headerBytes 1 nanos)) ([] ++ [⟨1, nanos, []⟩]) :=
    (show Listed dir ([] ++ []) from h).insert (by decide) hclock
      (fun p hp => absurd hp List.not_mem_nil) fun p hp => absurd hp List.not_mem_nil
  have hsame : reopened dir nanos = reopened (dir.create 1 (headerBytes 1 nanos)) nanos := by
    have hnone := h.listSegments
    have hone := hins.listSegments
    unfold reopened OpenWal.open
    dsimp only
    rw [hnone, hone]
    rfl
  have hmem : (⟨1, headerBytes 1 nanos⟩ : SegmentFile) ∈ dir.create 1 (headerBytes 1 nanos) :=
    List.mem_append_right _ (List.mem_singleton_self _)
  have hc : (dir.create 1 (headerBytes 1 nanos)).contents 1 = headerBytes 1 nanos :=
    contents_of_mem hins.nodup hmem
  have hholding : Holding (keptTail ((dir.create 1 (headerBytes 1 nanos)).contents 1)) [] := by
    have hlen := length_headerBytes 1 nanos
    rw [hc, keptTail, List.take_of_length_le (by rw [hlen]; exact Nat.le_add_right _ _)]
    exact Holding.header_only 1 nanos
  rw [hsame]
  exact going_reopened hins hholding List.nodup_nil (fun e he => absurd he List.not_mem_nil)
    le_rfl nanos

/-- An unreadable segment hides nothing. -/
theorem shows_unreadable {init : List Piece} {p : Piece} (hlog : Chained (init ++ [p]))
    {bytes : Bytes} {dir : Directory}
    (hdir : dir.Perm (init.map Piece.file ++ [⟨p.firstLsn, bytes⟩])) {nanos : ℕ}
    (hclock : nanos < 2 ^ 64) (hheader : readSegmentHeader bytes = none) :
    ShowsAppends (init.flatMap (·.entries)) bytes (reopened dir nanos) := by
  have hlisted := listed_unreadable hlog hdir hheader
  rcases List.eq_nil_or_concat' init with rfl | ⟨ps, q, rfl⟩
  · have hgoing : Going ([] ++ []) (reopened dir nanos) [] ⟨1, nanos, []⟩ := going_empty hlisted hclock
    exact hgoing.shows List.nil_prefix
  · have hsound : q.Sound := hlog.sound q (by simp)
    have hparts := List.isChain_append.mp hlog.follows
    have hchain : Chained (ps ++ [q]) :=
      ⟨fun r hr => hlog.sound r (List.mem_append_left _ hr), hparts.1⟩
    have hsealed : q.entries ≠ [] := (hparts.2.2 q (by simp) p rfl).1
    have hfile : q.file ∈ dir := hdir.mem_iff.mpr (by simp)
    have hc : dir.contents q.firstLsn = q.file.bytes := contents_of_mem hlisted.nodup hfile
    have hbelow : ∀ e ∈ (ps ++ [q]).flatMap (·.entries), e.lsn < q.goesOn := by
      intro e he
      have hsorted := hchain.sorted
      rw [List.flatMap_append, List.flatMap_singleton, lsns_append] at hsorted
      rw [List.flatMap_append, List.flatMap_singleton] at he
      rw [goesOn_of_sound hsound]
      rcases List.mem_append.mp he with he | he
      · obtain ⟨x, hx⟩ := List.exists_mem_of_ne_nil _ hsealed
        exact ((List.pairwise_append.mp hsorted).2.2 _ (List.mem_map_of_mem he) _
          (List.mem_map_of_mem hx)).trans (lsn_mem hsound.numbered hx).2
      · exact (lsn_mem hsound.numbered he).2
    have hgoing := going_reopened hlisted (hc ▸ holding_file hsound)
      (hchain.sorted.imp fun hlt => hlt.ne) hbelow
      (by rw [goesOn_of_sound hsound]; exact Nat.le_add_right _ _) nanos
    rw [← List.append_nil ((ps ++ [q]).flatMap (·.entries))] at hgoing
    exact hgoing.shows List.nil_prefix

theorem shows_of_readsOn {init : List Piece} {p : Piece} (hlog : Chained (init ++ [p]))
    {bytes : Bytes} {dir : Directory}
    (hdir : dir.Perm (init.map Piece.file ++ [⟨p.firstLsn, bytes⟩])) {t : ℕ}
    (hheader : readSegmentHeader bytes = some (p.firstLsn, t))
    (h : ReadsOn (init.flatMap (·.entries)) p.firstLsn bytes) (nanos : ℕ) :
    ShowsAppends (init.flatMap (·.entries)) bytes (reopened dir nanos) := by
  have hlisted := listed_damaged hlog hdir hheader
  have hlen := length_of_header hheader
  have hc : dir.contents p.firstLsn = bytes :=
    contents_of_mem (nodup_damaged hlog hdir)
      (f := ⟨p.firstLsn, bytes⟩) (hdir.mem_iff.mpr (by simp))
  have hentries : (init ++ [(⟨p.firstLsn, t, entriesIn bytes⟩ : Piece)]).flatMap (·.entries) =
      init.flatMap (·.entries) ++ entriesIn bytes := by
    rw [List.flatMap_append, List.flatMap_singleton]
  have hholding : Holding (keptTail (dir.contents p.firstLsn)) (entriesIn bytes) := by
    have hhead : (bytes.take segmentHeader).length = segmentHeader := by
      rw [List.length_take, min_eq_left hlen]
    rw [hc, keptTail_eq hlen, entriesIn_eq hlen]
    constructor
    · rw [List.length_append, hhead]
      exact Nat.le_add_right _ _
    · rw [List.drop_left' hhead]
      exact cut_whole h.intact
  have hgoing := going_reopened hlisted hholding (hentries ▸ h.apart) (hentries ▸ h.below) h.first nanos
  rw [hentries] at hgoing
  exact hgoing.shows List.prefix_rfl

/-! ## What hides an append -/

/-- An entry that is replayed is in a file. -/
theorem mem_entriesFrom {dir : Directory} {start : ℕ} {e : WalEntry}
    (h : e ∈ OpenWal.entriesFrom dir start) : ∃ f ∈ dir, e ∈ entriesIn f.bytes := by
  have hcontents : ∀ name, e ∈ entriesIn (dir.contents name) → ∃ f ∈ dir, e ∈ entriesIn f.bytes := by
    intro name he
    rw [Directory.contents] at he
    cases hf : dir.find? (·.name = name) with
    | none =>
      rw [hf] at he
      exact absurd he List.not_mem_nil
    | some f =>
      rw [hf] at he
      exact ⟨f, List.mem_of_find?_eq_some hf, he⟩
  have hskip : ∀ (skipped : Bool) {l : List WalEntry}, e ∈ (if skipped = true then [] else l) →
      e ∈ l := by
    intro skipped l he
    cases skipped with
    | true => exact absurd he List.not_mem_nil
    | false => exact he
  rw [OpenWal.entriesFrom] at h
  generalize OpenWal.listSegments dir = segments at h
  induction segments with
  | nil => exact absurd h List.not_mem_nil
  | cons seg rest ih =>
    rw [OpenWal.entriesFromSegments] at h
    rcases List.mem_append.mp h with h | h
    · exact hcontents _ (List.mem_of_mem_filter (hskip _ h))
    · exact ih h

theorem mem_directory_append {dir : Directory} {name : ℕ} {x : Bytes} {f : SegmentFile}
    (h : f ∈ dir.append name x) : (f ∈ dir ∧ f.name ≠ name) ∨
      ∃ g ∈ dir, g.name = name ∧ f = { g with bytes := g.bytes ++ x } := by
  obtain ⟨g, hg, rfl⟩ := List.mem_map.mp h
  by_cases hname : g.name = name
  · rw [if_pos hname]
    exact .inr ⟨g, hg, hname, rfl⟩
  · rw [if_neg hname]
    exact .inl ⟨hg, hname⟩

theorem not_mem_of_apart {before : List WalEntry} {e : WalEntry} (h : (lsns (before ++ [e])).Nodup) :
    e ∉ before := by
  intro he
  rw [lsns_append, List.nodup_append] at h
  exact h.2.2 e.lsn (List.mem_map_of_mem he) e.lsn (List.mem_singleton_self _) rfl

/-- The smallest append there is. -/
def smallOp : WalOp := .delete "" 0

def small : LogCall := .append 0 0 0 smallOp

theorem small_inRange : small.InRange := by
  refine ⟨by decide, by decide, by decide, trivial, by decide⟩

theorem small_step {s : Appending} (h : s.wal.nextLsn + 1 < 2 ^ 64) :
    Wrote s ⟨s.wal.nextLsn, 0, 0, smallOp⟩ 0 (small.step s) := by
  rcases append_step small_inRange h with ⟨-, hw⟩ | ⟨hlarge, -⟩
  · exact hw
  · exact absurd hlarge (by decide)

/-- An append that fills a segment by itself. -/
def largeOp : WalOp := .insert "" 0 (List.replicate defaultSegmentBytes 0)

def large : LogCall := .append 0 0 0 largeOp

theorem length_largeOp : largeOp.encode.length = 7 + defaultSegmentBytes := by
  have hvarint : (Varint.writeU64 (UInt64.ofNat defaultSegmentBytes)).length = 4 := by decide
  have hstr : (putStr "").length = 1 := by decide
  have hid : (putU64 ((0 : RecordId) : ℕ)).length = 1 := by decide
  rw [largeOp, WalOp.encode, List.length_cons, List.length_append, List.length_append, hstr, hid,
    putBytes, List.length_append, List.length_replicate, hvarint]
  omega

theorem large_inRange : large.InRange := by
  refine ⟨by decide, by decide, by decide, trivial, ?_⟩
  rw [length_largeOp]
  decide

theorem large_step {s : Appending} (h : s.wal.nextLsn + 1 < 2 ^ 64) :
    Wrote s ⟨s.wal.nextLsn, 0, 0, largeOp⟩ 0 (large.step s) := by
  rcases append_step large_inRange h with ⟨-, hw⟩ | ⟨hlarge, -⟩
  · exact hw
  · rw [length_largeOp] at hlarge
    exact absurd hlarge (by decide)

/-- Small appends take one number after the other. -/
theorem run_small {s : Appending} {n : ℕ} (h : s.wal.nextLsn + n < 2 ^ 64) :
    (run LogCall.step s (List.replicate n small)).appended = s.appended ++
      (List.range' s.wal.nextLsn n).map fun lsn => ⟨lsn, 0, 0, smallOp⟩ := by
  induction n generalizing s with
  | zero => exact (List.append_nil _).symm
  | succ n ih =>
    have hw := small_step (s := s) (by omega)
    rw [List.replicate_succ, run_cons, ih (by rw [hw.nextLsn]; omega), hw.appended, hw.nextLsn,
      List.append_assoc, List.range'_succ, List.map_cons]
    rfl

section Hidden

variable {init : List Piece} {p : Piece} (hlog : Chained (init ++ [p])) {bytes : Bytes}
  {dir : Directory} (hdir : dir.Perm (init.map Piece.file ++ [⟨p.firstLsn, bytes⟩])) {t : ℕ}
  (hheader : readSegmentHeader bytes = some (p.firstLsn, t)) {nanos : ℕ}
  (hshows : ShowsAppends (init.flatMap (·.entries)) bytes (reopened dir nanos))
include hlog hdir hheader

theorem opened_damaged (nanos : ℕ) :
    Opened dir init ⟨p.firstLsn, t, entriesIn bytes⟩ (OpenWal.open dir nanos) :=
  opened (listed_damaged hlog hdir hheader) nanos

omit hheader in
theorem contents_damaged : dir.contents p.firstLsn = bytes :=
  contents_of_mem (nodup_damaged hlog hdir) (f := ⟨p.firstLsn, bytes⟩) (hdir.mem_iff.mpr (by simp))

theorem nextLsn_reopened (nanos : ℕ) : (reopened dir nanos).wal.nextLsn =
    (Piece.mk p.firstLsn 0 (entriesIn bytes)).goesOn :=
  (opened_damaged hlog hdir hheader nanos).nextLsn

/-- The entries kept are those that read. -/
theorem kept_eq {kept : List WalEntry}
    (h : OpenWal.entriesFrom (reopened dir nanos).dir 0 = init.flatMap (·.entries) ++ kept ++ []) :
    kept = entriesIn bytes := by
  have hread := (opened_damaged hlog hdir hheader nanos).listed.entriesFrom_zero
  rw [List.flatMap_append, List.flatMap_singleton] at hread
  rw [List.append_nil, show (reopened dir nanos).dir = (OpenWal.open dir nanos).2 from rfl, hread] at h
  exact (List.append_cancel_left h).symm

/-- A file of the opened log holds nothing but what was read before, and its active
segment is what is left of the damaged one. -/
theorem mem_reopened {f : SegmentFile} (hf : f ∈ (reopened dir nanos).dir) :
    f = ⟨p.firstLsn, keptTail bytes⟩ ∨ (f.name ≠ p.firstLsn ∧ entriesIn f.bytes ⊆
      init.flatMap (·.entries)) := by
  have ho := opened_damaged hlog hdir hheader nanos
  rw [show (reopened dir nanos).dir = (OpenWal.open dir nanos).2 from rfl, ho.files,
    contents_damaged hlog hdir] at hf
  obtain ⟨g, hg, rfl⟩ := List.mem_map.mp hf
  rcases List.mem_append.mp (hdir.mem_iff.mp hg) with hg | hg
  · obtain ⟨q, hq, rfl⟩ := List.mem_map.mp hg
    have hne : q.file.name ≠ p.firstLsn :=
      ((List.pairwise_append.mp hlog.ascending).2.2 q hq p (List.mem_singleton_self p)).ne
    rw [if_neg hne]
    refine .inr ⟨hne, fun e he => List.mem_flatMap.mpr ⟨q, hq, ?_⟩⟩
    rwa [(Piece.image_file (hlog.sound q (List.mem_append_left _ hq))).shown.entries] at he
  · rw [List.mem_singleton.mp hg, if_pos rfl]
    exact .inl rfl

/-- Behind a frame that does not decode an entry is written where nothing reads it. -/
theorem hidden_append {payload : Bytes}
    (h : nextPayload (unread (bytes.drop segmentHeader)) = some payload) {e : WalEntry}
    {headerNanos : ℕ} {s : Appending} (hw : Wrote (reopened dir nanos) e headerNanos s)
    (he : e ∈ OpenWal.entriesFrom s.dir 0) :
    e ∈ init.flatMap (·.entries) ++ entriesIn bytes := by
  have ho := opened_damaged hlog hdir hheader nanos
  have hlen := length_of_header hheader
  have hpath : (OpenWal.activeOf (reopened dir nanos).wal.segments).path = p.firstLsn := by
    rw [show (reopened dir nanos).wal.segments = _ from ho.segments, OpenWal.activeOf,
      List.map_append, List.map_singleton, List.getLastD_concat]
    rfl
  obtain ⟨f, hf, hef⟩ := mem_entriesFrom he
  have hfiles := hw.files
  rw [hpath] at hfiles
  have hwritten : f ∈ (reopened dir nanos).dir.append p.firstLsn e.frame := by
    rcases hfiles with ⟨-, -, hd⟩ | ⟨-, -, -, hd⟩
    · exact hd ▸ hf
    · rw [hd] at hf
      rcases List.mem_append.mp hf with hf | hf
      · exact List.mem_of_mem_filter hf
      · rw [List.mem_singleton.mp hf, (Holding.header_only _ _).read] at hef
        exact absurd hef List.not_mem_nil
  rcases mem_directory_append hwritten with ⟨hf, hne⟩ | ⟨g, hg, hname, rfl⟩
  · rcases mem_reopened hlog hdir hheader hf with rfl | ⟨-, hsub⟩
    · exact absurd rfl hne
    · exact List.mem_append_left _ (hsub hef)
  · rcases mem_reopened hlog hdir hheader hg with rfl | ⟨hne, -⟩
    · have hhead : (bytes.take segmentHeader).length = segmentHeader := by
        rw [List.length_take, min_eq_left hlen]
      apply List.mem_append_right
      rw [entriesIn_eq hlen, ← cut_hidden h e.frame]
      have hbytes : keptTail bytes ++ e.frame = bytes.take segmentHeader ++
          ((bytes.drop segmentHeader).take (intactLen (bytes.drop segmentHeader)) ++ e.frame) := by
        rw [keptTail_eq hlen, List.append_assoc]
      rw [hbytes, entriesIn_eq (by rw [List.length_append, hhead]; exact Nat.le_add_right _ _),
        List.drop_left' hhead] at hef
      exact hef
    · exact absurd hname hne

include hshows

/-- If nothing is hidden, reading stops where no intact frame begins. -/
theorem intact_of_shows (hroom : (reopened dir nanos).wal.nextLsn + 1 < 2 ^ 64) :
    nextPayload (unread (bytes.drop segmentHeader)) = none := by
  obtain ⟨kept, -, hall⟩ := hshows
  have hkept : kept = entriesIn bytes :=
    kept_eq hlog hdir hheader (hall [] (fun c hc => absurd hc List.not_mem_nil) (by
      rw [List.length_nil]
      omega)).1
  subst hkept
  obtain ⟨hreplay, hapart⟩ := hall [small] (fun c hc => List.mem_singleton.mp hc ▸ small_inRange) hroom
  by_contra hne
  obtain ⟨payload, hpayload⟩ := Option.ne_none_iff_exists'.mp hne
  have hw := small_step hroom
  rw [run_cons, run_nil, hw.appended] at hreplay hapart
  have hmem := hidden_append hlog hdir hheader hpayload hw
    (hreplay ▸ List.mem_append_right _ (List.mem_singleton_self _))
  exact not_mem_of_apart hapart hmem

/-- If no number comes twice, those that read are apart and below the next. -/
theorem numbers_of_shows (hroom : ∀ e ∈ init.flatMap (·.entries) ++ entriesIn bytes, e.lsn + 1 < 2 ^ 64)
    (hnext : (reopened dir nanos).wal.nextLsn < 2 ^ 64) :
    (lsns (init.flatMap (·.entries) ++ entriesIn bytes)).Nodup ∧
      ∀ e ∈ init.flatMap (·.entries) ++ entriesIn bytes, e.lsn < (reopened dir nanos).wal.nextLsn := by
  obtain ⟨kept, -, hall⟩ := hshows
  have hnone := hall [] (fun c hc => absurd hc List.not_mem_nil) hnext
  have hkept : kept = entriesIn bytes := kept_eq hlog hdir hheader hnone.1
  subst hkept
  refine ⟨?_, fun e he => ?_⟩
  · have hapart := hnone.2
    rwa [run_nil, show (reopened dir nanos).appended = [] from rfl, List.append_nil] at hapart
  · by_contra hle
    have hlsn := hroom e he
    have hcount : (reopened dir nanos).wal.nextLsn + (e.lsn + 1 - (reopened dir nanos).wal.nextLsn) =
        e.lsn + 1 := by omega
    have hapart := (hall (List.replicate (e.lsn + 1 - (reopened dir nanos).wal.nextLsn) small)
      (fun c hc => List.eq_of_mem_replicate hc ▸ small_inRange)
      (by rw [List.length_replicate]; omega)).2
    rw [run_small (by omega), lsns_append, List.nodup_append] at hapart
    refine hapart.2.2 e.lsn (List.mem_map_of_mem he) e.lsn ?_ rfl
    rw [lsns, List.mem_map]
    refine ⟨⟨e.lsn, 0, 0, smallOp⟩, ?_, rfl⟩
    apply List.mem_append_right
    apply List.mem_map_of_mem
    rw [List.mem_range'_1]
    omega

omit hheader hshows hdir in
/-- With sealed segments the numbers read reach up to the segment's own. -/
theorem first_of_sealed {ps : List Piece} {q : Piece} (hinit : init = ps ++ [q])
    (hbelow : ∀ e ∈ init.flatMap (·.entries) ++ entriesIn bytes,
      e.lsn < (reopened dir nanos).wal.nextLsn) :
    p.firstLsn ≤ (reopened dir nanos).wal.nextLsn := by
  subst hinit
  have hsound : q.Sound := hlog.sound q (by simp)
  obtain ⟨hne, hfollows⟩ := (List.isChain_append.mp hlog.follows).2.2 q (by simp) p rfl
  have hpos := List.length_pos_of_ne_nil hne
  have hlast : q.firstLsn + (q.entries.length - 1) ∈ lsns q.entries := by
    rw [hsound.numbered, List.mem_range'_1]
    omega
  obtain ⟨e, he, hlsn⟩ := List.mem_map.mp hlast
  have hlt := hbelow e (List.mem_append_left _ (List.mem_flatMap.mpr ⟨q, by simp, he⟩))
  rw [hlsn] at hlt
  rw [hfollows, Piece.next]
  omega

end Hidden

/-- An append to the segment at the path fills it, and the next one is begun. -/
structure Filled (s : Appending) (path : ℕ) (e : WalEntry) (s' : Appending) : Prop where
  activeBytes : s'.wal.activeBytes = segmentHeader
  segments : s'.wal.segments =
    s.wal.segments ++ [⟨s.wal.nextLsn + 1, 0, s.wal.nextLsn + 1⟩]
  files : s'.dir = (s.dir.append path e.frame).create (s.wal.nextLsn + 1)
    (headerBytes (s.wal.nextLsn + 1) 0)

theorem large_fills {s : Appending} {path : ℕ} (hroom : s.wal.nextLsn + 1 < 2 ^ 64)
    (hpath : (OpenWal.activeOf s.wal.segments).path = path)
    (hbytes : s.wal.segmentBytes = defaultSegmentBytes) :
    Filled s path ⟨s.wal.nextLsn, 0, 0, largeOp⟩ (large.step s) := by
  have hfiles := (large_step hroom).files
  rw [hpath] at hfiles
  rcases hfiles with ⟨hroomy, -, -⟩ | ⟨-, hactive, hsegments, hdir⟩
  · rw [length_encodePayload, length_largeOp, hbytes] at hroomy
    omega
  · exact ⟨hactive, hsegments, hdir⟩

/-- A small append to a segment just begun stays in it. -/
theorem small_stays {s : Appending} (hroom : s.wal.nextLsn + 1 < 2 ^ 64)
    (hactive : s.wal.activeBytes = segmentHeader) (hbytes : s.wal.segmentBytes = defaultSegmentBytes) :
    (small.step s).dir = s.dir.append (OpenWal.activeOf s.wal.segments).path
      (WalEntry.frame ⟨s.wal.nextLsn, 0, 0, smallOp⟩) := by
  rcases (small_step hroom).files with ⟨-, -, hdir⟩ | ⟨hfull, -⟩
  · exact hdir
  · rw [length_encodePayload, hactive, hbytes] at hfull
    exact absurd hfull (by decide)

/-- The segment begun takes the place of one of the same number, and what that one
held is gone. -/
theorem Filled.ne {p : Piece} (hlog : Chained ([] ++ [p])) {bytes : Bytes} {dir : Directory}
    (hdir : dir.Perm (([] : List Piece).map Piece.file ++ [⟨p.firstLsn, bytes⟩])) {t : ℕ}
    (hheader : readSegmentHeader bytes = some (p.firstLsn, t)) {nanos : ℕ} {e : WalEntry}
    {s : Appending} (h : Filled (reopened dir nanos) p.firstLsn e s)
    (he : e ∈ OpenWal.entriesFrom s.dir 0) : (reopened dir nanos).wal.nextLsn + 1 ≠ p.firstLsn := by
  intro heq
  obtain ⟨f, hf, hef⟩ := mem_entriesFrom he
  rw [h.files, heq] at hf
  rcases List.mem_append.mp hf with hf | hf
  · obtain ⟨hf, hname⟩ := List.mem_filter.mp hf
    have hname : f.name ≠ p.firstLsn := by simpa using hname
    rcases mem_directory_append hf with ⟨hf, -⟩ | ⟨g, -, hg, rfl⟩
    · rcases mem_reopened hlog hdir hheader hf with rfl | ⟨-, hsub⟩
      · exact hname rfl
      · exact absurd (hsub hef) List.not_mem_nil
    · exact hname hg
  · rw [List.mem_singleton.mp hf, (Holding.header_only _ _).read] at hef
    exact absurd hef List.not_mem_nil

/-- A segment begun below another is listed before it, and what goes to it is
replayed first. -/
theorem Filled.replay {s s' s'' : Appending} {q : Piece} {e e' : WalEntry}
    (h : Filled s q.firstLsn e s') (hlisted : Listed s.dir ([] ++ [q]))
    (hheader : segmentHeader ≤ (s.dir.contents q.firstLsn).length) (he' : e'.Loggable)
    (hlt : s.wal.nextLsn + 1 < q.firstLsn) (hroom : s.wal.nextLsn + 1 < 2 ^ 64)
    (hdir : s''.dir = s'.dir.append (OpenWal.activeOf s'.wal.segments).path e'.frame) :
    OpenWal.entriesFrom s''.dir 0 = e' :: OpenWal.entriesFrom s'.dir 0 := by
  have hq : readSegmentHeader (s.dir.contents q.firstLsn) = some (q.firstLsn, q.nanos) := by
    obtain ⟨f, -, hs, hc⟩ := hlisted.contents (p := q) (by simp)
    exact hc ▸ hs.header
  have hframe : readSegmentHeader (s.dir.contents q.firstLsn ++ e.frame) =
      some (q.firstLsn, q.nanos) := by
    rw [← hq]
    apply readSegmentHeader_congr
    exact List.take_append_of_le_length hheader
  have hfiled := hlisted.rewrite (· ++ e.frame) hframe rfl
  have hbegun : Listed s'.dir ([] ++ ⟨s.wal.nextLsn + 1, 0, []⟩ ::
      [{ q with entries := entriesIn (s.dir.contents q.firstLsn ++ e.frame) }]) := by
    rw [h.files]
    refine Listed.insert (show Listed _ ([] ++ [_]) from hfiled) hroom (by decide)
      (fun p hp => absurd hp List.not_mem_nil) fun p hp => ?_
    rw [List.mem_singleton.mp hp]
    exact hlt
  have hnew : s'.dir.contents (s.wal.nextLsn + 1) = headerBytes (s.wal.nextLsn + 1) 0 := by
    have hmem : (⟨s.wal.nextLsn + 1, headerBytes (s.wal.nextLsn + 1) 0⟩ : SegmentFile) ∈ s'.dir := by
      rw [h.files]
      exact List.mem_append_right _ (List.mem_singleton_self _)
    exact contents_of_mem hbegun.nodup hmem
  have hholding := (Holding.header_only (s.wal.nextLsn + 1) 0).append he'
  have hlast : Listed s''.dir ([] ++ ⟨s.wal.nextLsn + 1, 0, [e']⟩ ::
      [{ q with entries := entriesIn (s.dir.contents q.firstLsn ++ e.frame) }]) := by
    rw [hdir, h.segments, OpenWal.activeOf, List.getLastD_concat]
    refine hbegun.rewrite (· ++ e'.frame) ?_ ?_
    · rw [hnew]
      exact readSegmentHeader_file hroom (by decide) _
    · rw [hnew]
      exact hholding.read
  rw [hlast.entriesFrom_zero, hbegun.entriesFrom_zero]
  rfl

/-- Without sealed segments a lower number would begin a segment that is listed before
the damaged one, or in place of it. -/
theorem first_of_shows {p : Piece} (hlog : Chained ([] ++ [p])) {bytes : Bytes} {dir : Directory}
    (hdir : dir.Perm (([] : List Piece).map Piece.file ++ [⟨p.firstLsn, bytes⟩])) {t : ℕ}
    (hheader : readSegmentHeader bytes = some (p.firstLsn, t)) {nanos : ℕ}
    (hshows : ShowsAppends [] bytes (reopened dir nanos)) (hroom : p.firstLsn + 1 < 2 ^ 64)
    (hbelow : ∀ e ∈ entriesIn bytes, e.lsn < (reopened dir nanos).wal.nextLsn) :
    p.firstLsn ≤ (reopened dir nanos).wal.nextLsn := by
  by_contra hlt
  have ho := opened_damaged hlog hdir hheader nanos
  obtain ⟨kept, -, hall⟩ := hshows
  have hkept : kept = entriesIn bytes :=
    kept_eq hlog hdir hheader (hall [] (fun c hc => absurd hc List.not_mem_nil) (by
      rw [List.length_nil]
      omega)).1
  subst hkept
  -- the first append fills the segment, the second goes to the one begun behind it
  have hone := (hall [large] (fun c hc => List.mem_singleton.mp hc ▸ large_inRange) (by
    rw [List.length_singleton]
    omega)).1
  have htwo := (hall [large, small] (by
    intro c hc
    rcases List.mem_pair.mp hc with rfl | rfl
    · exact large_inRange
    · exact small_inRange) (by
    rw [List.length_cons, List.length_singleton]
    omega)).1
  have hlarge := large_step (s := reopened dir nanos) (by omega)
  have hsmall := small_step (s := large.step (reopened dir nanos)) (by rw [hlarge.nextLsn]; omega)
  rw [run_cons, run_nil, hlarge.appended] at hone
  rw [run_cons, run_cons, run_nil, hsmall.appended, hlarge.appended, hlarge.nextLsn] at htwo
  have hfills : Filled (reopened dir nanos) p.firstLsn
      ⟨(reopened dir nanos).wal.nextLsn, 0, 0, largeOp⟩ (large.step (reopened dir nanos)) := by
    apply large_fills (by omega) _ ho.segmentBytes
    rw [show (reopened dir nanos).wal.segments = _ from ho.segments]
    rfl
  have hne := hfills.ne hlog hdir hheader (hone ▸ List.mem_append_right _ (List.mem_singleton_self _))
  have hreplay := hfills.replay (q := ⟨p.firstLsn, t, entriesIn bytes⟩) ho.listed
    (by
      rw [show (reopened dir nanos).dir.contents p.firstLsn = _ from ho.contents,
        contents_damaged hlog hdir, keptTail, List.length_take]
      have hlen := length_of_header hheader
      omega)
    hsmall.loggable (by dsimp only; omega) (by omega)
    (small_stays (by rw [hlarge.nextLsn]; omega) hfills.activeBytes
      (hlarge.segmentBytes.trans ho.segmentBytes))
  rw [hone, htwo, hlarge.nextLsn] at hreplay
  -- an entry of the damaged segment would have to be the one appended last
  have hread : entriesIn bytes ≠ [] := by
    intro hnil
    have hnext := nextLsn_reopened hlog hdir hheader nanos
    rw [hnil] at hnext
    exact hlt hnext.ge
  obtain ⟨x, rest, hx⟩ := List.exists_cons_of_ne_nil hread
  have hlsn := hbelow x (hx ▸ List.mem_cons_self)
  rw [hx] at hreplay
  have hhead := congrArg (·.head?.map (·.lsn)) hreplay
  simp at hhead
  omega

/-! ## Where opening hides nothing -/

/-- The header of the active segment does not read, or it reads as its own and
reading goes on behind what is kept. -/
def Reopens (init : List Piece) (p : Piece) (bytes : Bytes) : Prop :=
  readSegmentHeader bytes = none ∨ (∃ t, readSegmentHeader bytes = some (p.firstLsn, t)) ∧
    ReadsOn (init.flatMap (·.entries)) p.firstLsn bytes

theorem readsOn_of_shows {init : List Piece} {p : Piece} (hlog : Chained (init ++ [p]))
    {bytes : Bytes} {dir : Directory}
    (hdir : dir.Perm (init.map Piece.file ++ [⟨p.firstLsn, bytes⟩])) {t : ℕ}
    (hheader : readSegmentHeader bytes = some (p.firstLsn, t)) {nanos : ℕ}
    (hroom : ∀ lsn ∈ p.firstLsn :: lsns (entriesIn bytes), lsn + 2 < 2 ^ 64)
    (hshows : ShowsAppends (init.flatMap (·.entries)) bytes (reopened dir nanos)) :
    ReadsOn (init.flatMap (·.entries)) p.firstLsn bytes := by
  have hnext := nextLsn_reopened hlog hdir hheader nanos
  have hbound : (reopened dir nanos).wal.nextLsn + 1 < 2 ^ 64 := by
    rw [hnext, Piece.goesOn]
    cases hlast : (entriesIn bytes).getLast? with
    | none =>
      have hfirst := hroom p.firstLsn List.mem_cons_self
      exact Nat.lt_of_succ_lt hfirst
    | some e =>
      have hmem : e.lsn ∈ lsns (entriesIn bytes) :=
        List.mem_map_of_mem (List.mem_of_getLast? hlast)
      exact hroom e.lsn (List.mem_cons_of_mem _ hmem)
  have hsealed : ∀ e ∈ init.flatMap (·.entries), e.lsn + 1 < 2 ^ 64 := by
    intro e he
    obtain ⟨q, hq, he⟩ := List.mem_flatMap.mp he
    have hsound := hlog.sound q (List.mem_append_left _ hq)
    exact Nat.lt_of_le_of_lt (lsn_mem hsound.numbered he).2 hsound.bound
  obtain ⟨hapart, hbelow⟩ := numbers_of_shows hlog hdir hheader hshows (by
    intro e he
    rcases List.mem_append.mp he with he | he
    · exact hsealed e he
    · have hlsn := hroom e.lsn (List.mem_cons_of_mem _ (List.mem_map_of_mem he))
      exact Nat.lt_of_succ_lt hlsn) (Nat.lt_of_succ_lt hbound)
  refine ⟨intact_of_shows hlog hdir hheader hshows hbound, hapart, hnext ▸ hbelow, hnext ▸ ?_⟩
  rcases List.eq_nil_or_concat' init with rfl | ⟨ps, q, hinit⟩
  · have hfirst := hroom p.firstLsn List.mem_cons_self
    exact first_of_shows hlog hdir hheader hshows (Nat.lt_of_succ_lt hfirst) hbelow
  · exact first_of_sealed hlog hinit hbelow

/-- Opening hides no later append where the header does not read, or where reading
stops at no intact frame and the numbers read lie below the next one; and only there,
where the header names its own segment. -/
theorem shows_appends_iff {init : List Piece} {p : Piece} (hlog : Chained (init ++ [p]))
    {bytes : Bytes} {dir : Directory}
    (hdir : dir.Perm (init.map Piece.file ++ [⟨p.firstLsn, bytes⟩])) {nanos : ℕ}
    (hclock : nanos < 2 ^ 64) :
    (Reopens init p bytes → ShowsAppends (init.flatMap (·.entries)) bytes (reopened dir nanos)) ∧
      ((∀ first t, readSegmentHeader bytes = some (first, t) → first = p.firstLsn) →
        (∀ lsn ∈ p.firstLsn :: lsns (entriesIn bytes), lsn + 2 < 2 ^ 64) →
          ShowsAppends (init.flatMap (·.entries)) bytes (reopened dir nanos) →
            Reopens init p bytes) := by
  constructor
  · rintro (hnone | ⟨⟨t, hheader⟩, hreads⟩)
    · exact shows_unreadable hlog hdir hclock hnone
    · exact shows_of_readsOn hlog hdir hheader hreads nanos
  · intro hown hroom hshows
    cases hheader : readSegmentHeader bytes with
    | none => exact .inl hheader
    | some header =>
      obtain ⟨first, t⟩ := header
      obtain rfl := hown first t hheader
      exact .inr ⟨⟨t, hheader⟩, readsOn_of_shows hlog hdir hheader hroom hshows⟩

/-- A first segment that was never damaged. -/
def first : Piece := ⟨1, 0, [⟨1, 0, 0, smallOp⟩]⟩

theorem chained_first : Chained ([] ++ [first]) := by
  have hloggable : WalEntry.Loggable ⟨1, 0, 0, smallOp⟩ :=
    ⟨by decide, by decide, by decide, trivial, by decide⟩
  constructor
  · intro q hq
    rw [List.mem_singleton.mp hq]
    exact ⟨by decide, by decide, rfl, fun e he => List.mem_singleton.mp he ▸ hloggable⟩
  · exact List.isChain_singleton _

/-- Its last frame may be torn. -/
theorem torn_reopens : ShowsAppends [] (first.file.bytes ++ [7]) (reopened [⟨1, first.file.bytes ++ [7]⟩] 0) :=
  (shows_appends_iff chained_first (List.Perm.refl _) (by decide)).1
    (.inr ⟨⟨0, by decide +kernel⟩, by decide +kernel, by decide +kernel, by decide +kernel,
      by decide +kernel⟩)

/-- A first segment whose only frame is whole and holds an operation of no known kind. -/
def unknownOp : Bytes :=
  let payload := leBytes 8 1 ++ leBytes 8 0 ++ leBytes 8 0 ++ [13]
  first.header ++ (leBytes 4 payload.length ++ leBytes 4 (checksum payload).toNat ++ payload)

/-- The entry appended behind it is never replayed. -/
theorem hidden_behind_unknown :
    (∃ t, readSegmentHeader unknownOp = some (1, t)) ∧
      (run LogCall.step (reopened [⟨1, unknownOp⟩] 0) [small]).appended = [⟨1, 0, 0, smallOp⟩] ∧
      OpenWal.entriesFrom (run LogCall.step (reopened [⟨1, unknownOp⟩] 0) [small]).dir 0 = [] ∧
      ¬ ShowsAppends [] unknownOp (reopened [⟨1, unknownOp⟩] 0) := by
  have happended : (run LogCall.step (reopened [⟨1, unknownOp⟩] 0) [small]).appended =
      [⟨1, 0, 0, smallOp⟩] := by decide +kernel
  have hreplay : OpenWal.entriesFrom (run LogCall.step (reopened [⟨1, unknownOp⟩] 0) [small]).dir 0 =
      [] := by decide +kernel
  refine ⟨⟨0, by decide +kernel⟩, happended, hreplay, ?_⟩
  rintro ⟨kept, -, hall⟩
  have hread := (hall [small] (fun c hc => List.mem_singleton.mp hc ▸ small_inRange)
    (by decide +kernel)).1
  rw [happended, hreplay] at hread
  simp at hread

end Adabt.Storage
