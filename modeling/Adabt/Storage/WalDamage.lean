import Adabt.Storage.WalRuns

/-! # A damaged entry

Each segment is read on its own, up to the first frame that does not check out.
Replay therefore ends at a damaged entry only if no later segment holds any. -/

set_option autoImplicit false

namespace Adabt.Storage
open Adabt.Core Adabt.Library

/-- The entry a buffer starts with, if its frame checks out, and what is behind it. -/
def readFrame (buf : Bytes) : Option (WalEntry × Bytes) :=
  match nextPayload buf with
  | none => none
  | some payload =>
    match WalEntry.decodePayload payload with
    | .ok e => some (e, buf.drop (8 + payload.length))
    | .error _ => none

theorem decodeLoop_succ (fuel : ℕ) (buf : Bytes) :
    decodeLoop (fuel + 1) buf =
      match readFrame buf with
      | none => []
      | some (e, rest) => e :: decodeLoop fuel rest := by
  rw [decodeLoop, readFrame]
  cases nextPayload buf with
  | none => rfl
  | some payload =>
    dsimp only
    cases WalEntry.decodePayload payload with
    | ok e => rfl
    | error err => rfl

theorem readFrame_length {buf rest : Bytes} {e : WalEntry} (h : readFrame buf = some (e, rest)) :
    rest.length < buf.length := by
  have h8 : 8 ≤ buf.length := by
    by_contra hlt
    rw [readFrame, nextPayload_short (by omega)] at h
    cases h
  rw [readFrame] at h
  split at h
  · cases h
  · split at h
    · obtain ⟨-, rfl⟩ := Prod.mk.inj (Option.some.inj h)
      rw [List.length_drop]
      omega
    · cases h

/-- As much fuel as there are bytes is enough. -/
theorem decodeLoop_fuel {fuel : ℕ} {buf : Bytes} (h : buf.length ≤ fuel) :
    decodeLoop fuel buf = decodeFrames buf := by
  have hstep : ∀ n m : ℕ, ∀ buf : Bytes, buf.length ≤ n → buf.length ≤ m →
      decodeLoop n buf = decodeLoop m buf := by
    intro n
    induction n with
    | zero =>
      intro m buf hn hm
      rw [decodeLoop_none (nextPayload_short (by omega)), decodeLoop_none (nextPayload_short (by omega))]
    | succ n ih =>
      intro m buf hn hm
      cases m with
      | zero =>
        rw [decodeLoop_none (nextPayload_short (by omega)),
          decodeLoop_none (nextPayload_short (by omega))]
      | succ m =>
        rw [decodeLoop_succ, decodeLoop_succ]
        cases hr : readFrame buf with
        | none => rfl
        | some step =>
          obtain ⟨e, rest⟩ := step
          have hlt := readFrame_length hr
          exact congrArg (e :: ·) (ih m rest (by omega) (by omega))
  exact hstep fuel buf.length buf h le_rfl

theorem decodeFrames_none {buf : Bytes} (h : readFrame buf = none) : decodeFrames buf = [] := by
  rw [← decodeLoop_fuel (Nat.le_succ _), decodeLoop_succ, h]

theorem decodeFrames_some {buf rest : Bytes} {e : WalEntry} (h : readFrame buf = some (e, rest)) :
    decodeFrames buf = e :: decodeFrames rest := by
  rw [← decodeLoop_fuel (Nat.le_succ _), decodeLoop_succ, h]
  exact congrArg (e :: ·) (decodeLoop_fuel (readFrame_length h).le)

theorem decodeFrames_append {es : List WalEntry} (h : ∀ e ∈ es, e.Loggable) (tail : Bytes) :
    decodeFrames (frames es ++ tail) = es ++ decodeFrames tail := by
  obtain ⟨fuel, hf, hd⟩ := decodeLoop_frames h tail _ (List.length_append).ge
  rw [decodeFrames, hd, decodeLoop_fuel hf]

/-- At most one given entry is read. -/
theorem decodeFrames_prefix_iff (buf : Bytes) (e : WalEntry) :
    decodeFrames buf <+: [e] ↔
      ∀ e' rest, readFrame buf = some (e', rest) → e' = e ∧ readFrame rest = none := by
  constructor
  · intro h e' rest hr
    rw [decodeFrames_some hr, List.cons_prefix_cons] at h
    refine ⟨h.1, ?_⟩
    by_contra hne
    obtain ⟨⟨e₁, rest₁⟩, hs⟩ := Option.ne_none_iff_exists'.mp hne
    have hnil := List.prefix_nil.mp h.2
    rw [decodeFrames_some hs] at hnil
    cases hnil
  · intro h
    cases hr : readFrame buf with
    | none =>
      rw [decodeFrames_none hr]
      exact List.nil_prefix
    | some step =>
      obtain ⟨e', rest⟩ := step
      obtain ⟨heq, hnone⟩ := h e' rest hr
      rw [decodeFrames_some hr, decodeFrames_none hnone]
      exact heq ▸ List.prefix_rfl

/-- The file of a piece with the frame of one entry overwritten. -/
def damagedFile (p : Piece) (before after : List WalEntry) (bytes : Bytes) : SegmentFile :=
  ⟨p.firstLsn, p.header ++ (frames before ++ (bytes ++ frames after))⟩

variable {earlier later : List Piece} {p : Piece} {before after : List WalEntry} {e : WalEntry}

/-- What replay gives of a log with one frame overwritten. -/
theorem entriesFrom_damaged (h : Chained (earlier ++ p :: later)) (hp : p.entries = before ++ e :: after)
    (bytes : Bytes) {dir : Directory}
    (hdir : dir.Perm (earlier.map Piece.file ++ damagedFile p before after bytes ::
      later.map Piece.file)) :
    OpenWal.entriesFrom dir 0 = earlier.flatMap (·.entries) ++ (before ++
      (decodeFrames (bytes ++ frames after) ++ later.flatMap (·.entries))) := by
  have hsound := h.sound p (by simp)
  let q : Piece := { p with entries := before ++ decodeFrames (bytes ++ frames after) }
  have himage : q.Image (damagedFile p before after bytes) := by
    constructor
    · rfl
    · refine ⟨_, rfl, decodeFrames_append ?_ _⟩
      intro x hx
      exact hsound.loggable x (by rw [hp]; exact List.mem_append_left _ hx)
    · exact (Nat.le_add_right p.firstLsn p.entries.length).trans_lt hsound.bound
    · exact hsound.clock
  have hfiles : ∀ {qs : List Piece}, qs ⊆ earlier ++ p :: later →
      List.Forall₂ Piece.Image qs (qs.map Piece.file) := by
    intro qs hqs
    rw [List.forall₂_map_right_iff, List.forall₂_same]
    intro a ha
    exact Piece.image_file (h.sound a (hqs ha))
  have hreads : Reads dir (earlier ++ q :: later) := by
    constructor
    · refine ⟨_, hdir, List.rel_append (hfiles (List.subset_append_left _ _)) (.cons himage ?_)⟩
      exact hfiles (List.Subset.trans (List.subset_cons_self p later) (List.subset_append_right _ _))
    · have hasc := List.pairwise_append.mp h.ascending
      have hcons := List.pairwise_cons.mp hasc.2.1
      apply List.pairwise_append.mpr
      refine ⟨hasc.1, List.pairwise_cons.mpr ⟨hcons.1, hcons.2⟩, ?_⟩
      intro a ha b hb
      rcases List.mem_cons.mp hb with rfl | hb
      · exact hasc.2.2 a ha p List.mem_cons_self
      · exact hasc.2.2 a ha b (List.mem_cons_of_mem p hb)
  rw [hreads.entriesFrom_zero, List.flatMap_append, List.flatMap_cons, List.append_assoc before]

/-- Replay of a log with one frame overwritten gives a prefix of what was appended
that ends at the damaged entry or before it, exactly when no later segment holds an
entry and the damaged frame is refused, or read as the entry it held and followed
by nothing that is read. -/
theorem replay_stops_iff (h : Chained (earlier ++ p :: later)) (hp : p.entries = before ++ e :: after)
    (bytes : Bytes) {dir : Directory}
    (hdir : dir.Perm (earlier.map Piece.file ++ damagedFile p before after bytes ::
      later.map Piece.file)) :
    (OpenWal.entriesFrom dir 0 <+: (earlier ++ p :: later).flatMap (·.entries) ∧
        ∀ x ∈ OpenWal.entriesFrom dir 0, x.lsn ≤ e.lsn) ↔
      (∀ q ∈ later, q.entries = []) ∧
        ∀ e' rest, readFrame (bytes ++ frames after) = some (e', rest) →
          e' = e ∧ readFrame rest = none := by
  have happended : (earlier ++ p :: later).flatMap (·.entries) =
      (earlier.flatMap (·.entries) ++ before) ++ e :: (after ++ later.flatMap (·.entries)) := by
    simp [hp]
  have hsorted := h.sorted
  rw [happended, lsns_append, List.pairwise_append] at hsorted
  -- What follows the damaged entry is numbered above it.
  have hbehind : ∀ x ∈ after ++ later.flatMap (·.entries), e.lsn < x.lsn := by
    intro x hx
    exact (List.pairwise_cons.mp hsorted.2.1).1 x.lsn (List.mem_map_of_mem hx)
  have hbefore : ∀ x ∈ earlier.flatMap (·.entries) ++ before, x.lsn < e.lsn := by
    intro x hx
    exact hsorted.2.2 x.lsn (List.mem_map_of_mem hx) e.lsn List.mem_cons_self
  rw [entriesFrom_damaged h hp bytes hdir, happended, ← List.append_assoc,
    List.prefix_append_right_inj, ← decodeFrames_prefix_iff, ← List.flatMap_eq_nil_iff]
  generalize decodeFrames (bytes ++ frames after) = read
  generalize later.flatMap (·.entries) = rest at hbehind ⊢
  constructor
  · rintro ⟨hpre, hbound⟩
    have hnil : rest = [] := by
      by_contra hne
      obtain ⟨x, xs, rfl⟩ := List.exists_cons_of_ne_nil hne
      exact absurd (hbound x (by simp)) (not_le.mpr (hbehind x (by simp)))
    subst hnil
    rw [List.append_nil, List.append_nil] at hpre
    refine ⟨rfl, ?_⟩
    cases read with
    | nil => exact List.nil_prefix
    | cons a read =>
      obtain ⟨rfl, hrest⟩ := List.cons_prefix_cons.mp hpre
      cases read with
      | nil => exact List.prefix_rfl
      | cons b read =>
        have hb : b ∈ after := hrest.subset List.mem_cons_self
        exact absurd (hbound b (by simp)) (not_le.mpr (hbehind b (by simp [hb])))
  · rintro ⟨rfl, hread⟩
    rw [List.append_nil]
    constructor
    · exact hread.trans (List.prefix_append [e] _)
    · intro x hx
      rcases List.mem_append.mp hx with hx | hx
      · exact (hbefore x hx).le
      · rw [List.mem_singleton.mp (hread.subset hx)]

/-- Damage to the last entry of a log of two segments: both sides of the condition hold. -/
theorem replay_stops_last :
    let p₁ : Piece := ⟨1, 0, [⟨1, 5, 0, .commit 3⟩]⟩
    let p₂ : Piece := ⟨2, 0, [⟨2, 6, 0, .commit 4⟩]⟩
    let bytes := (WalEntry.frame ⟨2, 6, 0, .commit 4⟩).set 20 0xff
    ((OpenWal.entriesFrom [p₁.file, damagedFile p₂ [] [] bytes] 0 <+: p₁.entries ++ p₂.entries ∧
        ∀ x ∈ OpenWal.entriesFrom [p₁.file, damagedFile p₂ [] [] bytes] 0, x.lsn ≤ 2) ↔
      (∀ q ∈ ([] : List Piece), q.entries = []) ∧
        ∀ e' rest, readFrame (bytes ++ frames []) = some (e', rest) →
          e' = ⟨2, 6, 0, .commit 4⟩ ∧ readFrame rest = none) ∧
      readFrame (bytes ++ frames []) = none := by
  intro p₁ p₂ bytes
  have hsound : ∀ q ∈ [p₁, p₂], q.Sound := by
    intro q hq
    simp only [List.mem_cons, List.not_mem_nil, or_false] at hq
    rcases hq with rfl | rfl
    · exact ⟨by decide, by decide, rfl, by
        simp only [p₁, List.mem_singleton, forall_eq]
        exact ⟨by decide, by decide, by decide, (by decide : 3 < 2 ^ 64), by decide +kernel⟩⟩
    · exact ⟨by decide, by decide, rfl, by
        simp only [p₂, List.mem_singleton, forall_eq]
        exact ⟨by decide, by decide, by decide, (by decide : 4 < 2 ^ 64), by decide +kernel⟩⟩
  have hchained : Chained ([p₁] ++ p₂ :: []) := ⟨hsound, .cons_cons ⟨by decide, rfl⟩ (.singleton _)⟩
  have hp : p₂.entries = [] ++ ⟨2, 6, 0, .commit 4⟩ :: [] := rfl
  exact ⟨replay_stops_iff hchained hp bytes (List.Perm.refl _), by decide +kernel⟩

/-- One byte of the first of two segments changed: the entry of the second is still replayed. -/
theorem replay_skips_damage :
    let r := { LogRun.start 0 with wal := (LogRun.start 0).wal.setSegmentBytes 60 }
    let a := r.wal.append r.dir 5 0 0 (.commit 3)
    let r₁ := r.appended ⟨1, 5, 0, .commit 3⟩ a.2.1 a.2.2
    let b := r₁.wal.append r₁.dir 6 0 0 (.commit 4)
    let r₂ := r₁.appended ⟨2, 6, 0, .commit 4⟩ b.2.1 b.2.2
    let damaged := r₂.dir.map fun f => if f.name = 1 then { f with bytes := f.bytes.set 60 0xff } else f
    LogRun.Reachable r₂ ∧ r₂.history = [⟨1, 5, 0, .commit 3⟩, ⟨2, 6, 0, .commit 4⟩] ∧
      OpenWal.entriesFrom damaged 0 = [⟨2, 6, 0, .commit 4⟩] ∧
      ¬ OpenWal.entriesFrom damaged 0 <+: r₂.history := by
  intro r a r₁ b r₂ damaged
  have h : LogRun.Reachable r := (LogRun.Reachable.start 0 (by decide)).step (.setSegmentBytes _ 60)
  have h₁ : LogRun.Reachable r₁ := by
    apply h.append
    · exact ⟨by decide +kernel, by decide, by decide, (by decide : 3 < 2 ^ 64), by decide +kernel⟩
    · decide
    · decide +kernel
    · decide +kernel
  have h₂ : LogRun.Reachable r₂ := by
    apply h₁.append
    · exact ⟨by decide +kernel, by decide, by decide, (by decide : 4 < 2 ^ 64), by decide +kernel⟩
    · decide
    · decide +kernel
    · decide +kernel
  let p₁ : Piece := ⟨1, 0, [⟨1, 5, 0, .commit 3⟩]⟩
  let p₂ : Piece := ⟨2, 0, [⟨2, 6, 0, .commit 4⟩]⟩
  have hsound : ∀ q ∈ [p₁, p₂, ⟨3, 0, []⟩], q.Sound := by
    intro q hq
    simp only [List.mem_cons, List.not_mem_nil, or_false] at hq
    rcases hq with rfl | rfl | rfl
    · exact ⟨by decide, by decide, rfl, by
        simp only [p₁, List.mem_singleton, forall_eq]
        exact ⟨by decide, by decide, by decide, (by decide : 3 < 2 ^ 64), by decide +kernel⟩⟩
    · exact ⟨by decide, by decide, rfl, by
        simp only [p₂, List.mem_singleton, forall_eq]
        exact ⟨by decide, by decide, by decide, (by decide : 4 < 2 ^ 64), by decide +kernel⟩⟩
    · exact ⟨by decide, by decide, rfl, fun e he => absurd he (by simp)⟩
  have hchained : Chained ([] ++ p₁ :: [p₂, ⟨3, 0, []⟩]) :=
    ⟨hsound, .cons_cons ⟨by decide, rfl⟩ (.cons_cons ⟨by decide, rfl⟩ (.singleton _))⟩
  have hdir : damaged = [].map Piece.file ++
      damagedFile p₁ [] [] ((WalEntry.frame ⟨1, 5, 0, .commit 3⟩).set 20 0xff) ::
        [p₂, ⟨3, 0, []⟩].map Piece.file := by decide +kernel
  have hreplay : OpenWal.entriesFrom damaged 0 = [⟨2, 6, 0, .commit 4⟩] := by
    have hp : p₁.entries = [] ++ ⟨1, 5, 0, .commit 3⟩ :: [] := rfl
    rw [entriesFrom_damaged hchained hp _ (List.Perm.of_eq hdir)]
    decide +kernel
  exact ⟨h₂, by decide +kernel, hreplay, by rw [hreplay]; decide +kernel⟩

end Adabt.Storage
