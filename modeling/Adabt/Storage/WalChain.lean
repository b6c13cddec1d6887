import Adabt.Storage.WalReading

/-! # Segments in sequence

The segments of a log number their entries without a gap. The files of such
segments, the last of them cut, read as the entries before the cut. -/

set_option autoImplicit false

namespace Adabt.Storage
open Adabt.Core Adabt.Library

def lsns (es : List WalEntry) : List ℕ := es.map (·.lsn)

namespace Piece

/-- The LSN after the last entry. -/
def next (p : Piece) : ℕ := p.firstLsn + p.entries.length

/-- The entries are numbered from the first LSN on, and each was accepted. -/
structure Sound (p : Piece) : Prop where
  clock : p.nanos < 2 ^ 64
  bound : p.next < 2 ^ 64
  numbered : lsns p.entries = List.range' p.firstLsn p.entries.length
  loggable : ∀ e ∈ p.entries, e.Loggable

/-- A segment is sealed with entries, and the one after it starts where it ends. -/
def Follows (p q : Piece) : Prop := p.entries ≠ [] ∧ q.firstLsn = p.next

/-- The piece with the entries that lie wholly before a cut of its file. -/
def cut (p : Piece) (n : ℕ) : Piece := { p with entries := fitting (n - segmentHeader) p.entries }

def append (p : Piece) (e : WalEntry) : Piece := { p with entries := p.entries ++ [e] }

end Piece

/-- Sound pieces, each following the one before it. -/
structure Chained (ps : List Piece) : Prop where
  sound : ∀ p ∈ ps, p.Sound
  follows : List.IsChain Piece.Follows ps

/-! ## Numbers -/

theorem lsns_append (xs ys : List WalEntry) : lsns (xs ++ ys) = lsns xs ++ lsns ys :=
  List.map_append

theorem length_lsns (es : List WalEntry) : (lsns es).length = es.length := List.length_map _

theorem lsn_mem {es : List WalEntry} {first : ℕ} (h : lsns es = List.range' first es.length)
    {e : WalEntry} (he : e ∈ es) : first ≤ e.lsn ∧ e.lsn < first + es.length := by
  have hmem : e.lsn ∈ lsns es := List.mem_map_of_mem he
  rw [h, List.mem_range'_1] at hmem
  exact hmem

theorem lsns_le {es fs : List WalEntry} {first : ℕ} (h : lsns es = List.range' first es.length)
    (hp : fs <+: es) : lsns fs = List.range' first fs.length := by
  obtain ⟨rest, rfl⟩ := hp
  rw [lsns_append, List.length_append, ← List.range'_append_1] at h
  exact (List.append_inj h (by rw [length_lsns, List.length_range'])).1

theorem lsns_join {es fs : List WalEntry} {first : ℕ} (h : lsns es = List.range' first es.length)
    (h' : lsns fs = List.range' (first + es.length) fs.length) :
    lsns (es ++ fs) = List.range' first (es ++ fs).length := by
  rw [lsns_append, h, h', List.length_append, List.range'_append_1]

namespace Chained

theorem tail {p : Piece} {ps : List Piece} (h : Chained (p :: ps)) : Chained ps :=
  ⟨fun q hq => h.sound q (List.mem_cons_of_mem p hq), h.follows.tail⟩

/-- The entries of a chain are numbered from its first LSN on. -/
theorem numbered {p : Piece} {ps : List Piece} (h : Chained (p :: ps)) :
    lsns ((p :: ps).flatMap (·.entries)) =
      List.range' p.firstLsn ((p :: ps).flatMap (·.entries)).length := by
  induction ps generalizing p with
  | nil =>
    rw [List.flatMap_cons, List.flatMap_nil, List.append_nil]
    exact (h.sound p List.mem_cons_self).numbered
  | cons q ps ih =>
    have hq := ih h.tail
    rw [((List.isChain_cons_cons.mp h.follows).1).2] at hq
    rw [List.flatMap_cons]
    exact lsns_join (h.sound p List.mem_cons_self).numbered hq

theorem sorted {ps : List Piece} (h : Chained ps) :
    (lsns (ps.flatMap (·.entries))).Pairwise (· < ·) := by
  cases ps with
  | nil => exact List.Pairwise.nil
  | cons p ps =>
    rw [h.numbered]
    exact List.pairwise_lt_range'

theorem ascending {ps : List Piece} (h : Chained ps) :
    ps.Pairwise (fun p q => p.firstLsn < q.firstLsn) := by
  have hlt : List.IsChain (fun p q : Piece => p.firstLsn < q.firstLsn) ps := by
    apply h.follows.imp
    intro p q hpq
    have hpos := List.length_pos_of_ne_nil hpq.1
    have hnext := hpq.2
    simp only [Piece.next] at hnext
    omega
  have : IsTrans Piece (fun p q => p.firstLsn < q.firstLsn) := ⟨fun _ _ _ => lt_trans⟩
  exact List.isChain_iff_pairwise.mp hlt

theorem bounded {ps : List Piece} (h : Chained ps) : Bounded ps := by
  induction ps with
  | nil => exact List.isChain_nil
  | cons p ps ih =>
    cases ps with
    | nil => exact List.isChain_singleton p
    | cons q ps =>
      apply List.isChain_cons_cons.mpr
      constructor
      · intro e he
        rw [((List.isChain_cons_cons.mp h.follows).1).2]
        exact (lsn_mem (h.sound p List.mem_cons_self).numbered he).2
      · exact ih h.tail

/-- The last piece starts after all the entries before it. -/
theorem firstLsn_last {p q : Piece} {init : List Piece} (h : Chained (q :: (init ++ [p]))) :
    p.firstLsn = q.firstLsn + ((q :: init).flatMap (·.entries)).length := by
  induction init generalizing q with
  | nil =>
    have hp : p.firstLsn = q.next := ((List.isChain_cons_cons.mp h.follows).1).2
    simpa [Piece.next] using hp
  | cons a init ih =>
    have ha : a.firstLsn = q.next := ((List.isChain_cons_cons.mp h.follows).1).2
    have hp := ih h.tail
    simp only [Piece.next] at ha
    simp only [List.flatMap_cons, List.length_append] at hp ⊢
    omega

theorem append {ps qs : List Piece} (h : Chained (ps ++ qs)) : Chained ps ∧ Chained qs :=
  ⟨⟨fun p hp => h.sound p (List.mem_append_left qs hp), h.follows.left_of_append⟩,
    fun p hp => h.sound p (List.mem_append_right ps hp), h.follows.right_of_append⟩

/-- The last piece may be exchanged for one that starts where it does. -/
theorem replace {init : List Piece} {p q : Piece} (h : Chained (init ++ [p])) (hq : q.Sound)
    (hfirst : q.firstLsn = p.firstLsn) : Chained (init ++ [q]) := by
  constructor
  · intro r hr
    rcases List.mem_append.mp hr with hr | hr
    · exact h.sound r (List.mem_append_left _ hr)
    · rw [List.mem_singleton.mp hr]
      exact hq
  · have hf := h.follows
    rw [List.isChain_append] at hf ⊢
    refine ⟨hf.1, List.isChain_singleton q, ?_⟩
    intro a ha b hb
    obtain rfl : q = b := by simpa using hb
    have hap := hf.2.2 a ha p (by simp)
    exact ⟨hap.1, hfirst.trans hap.2⟩

/-- A piece with entries may be followed by an empty one. -/
theorem extend {init : List Piece} {p q : Piece} (h : Chained (init ++ [p])) (hp : p.entries ≠ [])
    (hq : q.Sound) (hfirst : q.firstLsn = p.next) : Chained (init ++ [p] ++ [q]) := by
  constructor
  · intro r hr
    rcases List.mem_append.mp hr with hr | hr
    · exact h.sound r hr
    · rw [List.mem_singleton.mp hr]
      exact hq
  · rw [List.isChain_append]
    refine ⟨h.follows, List.isChain_singleton q, ?_⟩
    intro a ha b hb
    obtain rfl : p = a := by simpa using ha
    obtain rfl : q = b := by simpa using hb
    exact ⟨hp, hfirst⟩

end Chained

/-! ## Pieces -/

namespace Piece

theorem Sound.cut {p : Piece} (h : p.Sound) (n : ℕ) : (p.cut n).Sound where
  clock := h.clock
  bound := by
    have hle := (fitting_le (n - segmentHeader) p.entries).length_le
    have hb := h.bound
    simp only [next, Piece.cut] at hb ⊢
    omega
  numbered := lsns_le h.numbered (fitting_le _ _)
  loggable e he := h.loggable e ((fitting_le _ _).subset he)

theorem Sound.append {p : Piece} (h : p.Sound) {e : WalEntry} (he : e.Loggable) (hlsn : e.lsn = p.next)
    (hb : p.next + 1 < 2 ^ 64) : (p.append e).Sound where
  clock := h.clock
  bound := by simpa [next, Piece.append, Nat.add_assoc] using hb
  numbered := by
    apply lsns_join h.numbered
    rw [lsns, List.map_singleton, hlsn]
    rfl
  loggable e' he' := by
    rcases List.mem_append.mp he' with he' | he'
    · exact h.loggable e' he'
    · rw [List.mem_singleton.mp he']
      exact he

theorem next_append (p : Piece) (e : WalEntry) : (p.append e).next = p.next + 1 := by
  simp [next, append, Nat.add_assoc]

theorem append_ne_nil (p : Piece) (e : WalEntry) : (p.append e).entries ≠ [] := by simp [append]

/-- The file of a piece, cut at or behind the end of its header. -/
def cutFile (p : Piece) (n : ℕ) : SegmentFile := ⟨p.firstLsn, p.file.bytes.take n⟩

theorem cutFile_bytes (p : Piece) {n : ℕ} (hn : segmentHeader ≤ n) :
    (p.cutFile n).bytes = p.header ++ (frames p.entries).take (n - segmentHeader) := by
  have hl : p.header.length = segmentHeader := length_headerBytes _ _
  rw [cutFile, file, List.take_append, List.take_of_length_le (by omega), hl]

theorem image_cutFile {p : Piece} (h : p.Sound) {n : ℕ} (hn : segmentHeader ≤ n) :
    (p.cut n).Image (p.cutFile n) where
  name := rfl
  decodes := ⟨_, p.cutFile_bytes hn, decodeFrames_take h.loggable _⟩
  firstLsn_lt := (Nat.le_add_right p.firstLsn p.entries.length).trans_lt h.bound
  nanos_lt := h.clock

theorem image_file {p : Piece} (h : p.Sound) : p.Image p.file where
  name := rfl
  decodes := ⟨_, rfl, decodeFrames_frames h.loggable⟩
  firstLsn_lt := (Nat.le_add_right p.firstLsn p.entries.length).trans_lt h.bound
  nanos_lt := h.clock

/-- Truncation keeps the whole frames. -/
theorem intactPrefixLen_cutFile {p : Piece} (h : p.Sound) {n : ℕ} (hn : segmentHeader ≤ n) :
    intactPrefixLen (p.cutFile n).bytes = (p.cut n).file.bytes.length := by
  have hl : p.header.length = segmentHeader := length_headerBytes _ _
  have hlen : (p.cutFile n).bytes.length =
      segmentHeader + ((frames p.entries).take (n - segmentHeader)).length := by
    rw [p.cutFile_bytes hn, List.length_append, hl]
  rw [intactPrefixLen, if_neg (by omega), p.cutFile_bytes hn, List.drop_left' hl,
    intactLoop_take h.loggable (by rw [List.length_append]; omega)]
  change _ = (p.header ++ frames _).length
  rw [List.length_append, hl]
  rfl

theorem take_cutFile {p : Piece} {n : ℕ} (hn : segmentHeader ≤ n) :
    (p.cutFile n).bytes.take (p.cut n).file.bytes.length = (p.cut n).file.bytes := by
  have hl : p.header.length = segmentHeader := length_headerBytes _ _
  have hfile : (p.cut n).file.bytes = p.header ++ frames (fitting (n - segmentHeader) p.entries) := rfl
  rw [p.cutFile_bytes hn, hfile, List.take_append, List.length_append,
    List.take_of_length_le (Nat.le_add_right _ _), Nat.add_sub_cancel_left]
  congr 1
  rcases take_frames (n - segmentHeader) p.entries with hw | ⟨e, k, -, -, hw⟩
  · rw [hw, List.take_length]
  · rw [hw, List.take_left]

end Piece

/-- Files of a chain, the last of them cut, read as the chain with its last piece cut. -/
theorem reads_cut {init : List Piece} {p : Piece} (h : Chained (init ++ [p])) {n : ℕ}
    (hn : segmentHeader ≤ n) {dir : Directory}
    (hdir : dir.Perm (init.map Piece.file ++ [p.cutFile n])) : Reads dir (init ++ [p.cut n]) where
  files := by
    refine ⟨_, hdir, List.rel_append ?_ (.cons (Piece.image_cutFile (h.sound p (by simp)) hn) .nil)⟩
    rw [List.forall₂_map_right_iff, List.forall₂_same]
    intro q hq
    exact Piece.image_file (h.sound q (List.mem_append_left _ hq))
  ascending := (h.replace ((h.sound p (by simp)).cut n) rfl).ascending

end Adabt.Storage
