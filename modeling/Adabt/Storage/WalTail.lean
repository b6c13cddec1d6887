import Adabt.Storage.WalDamage

/-! # Where reading stops and where the tail is cut

Opening a segment keeps the frames whose length and checksum hold. Reading stops
earlier where such a frame does not decode: the frame stays in the file, and
nothing written behind it is read. -/

set_option autoImplicit false

namespace Adabt.Storage
open Adabt.Core Adabt.Library

/-! ## One frame -/

theorem slice_take_append (buf rest : Bytes) {i m n : ℕ} (hm : i + m ≤ n) (hn : n ≤ buf.length) :
    slice (buf.take n ++ rest) i m = slice buf i m := by
  rw [slice, slice, List.drop_append_of_le_length (by rw [List.length_take]; omega),
    List.take_append_of_le_length (by rw [List.length_drop, List.length_take]; omega),
    List.drop_take, List.take_take, min_eq_left (by omega)]

theorem nextPayload_length {buf payload : Bytes} (h : nextPayload buf = some payload) :
    8 + payload.length ≤ buf.length := by
  unfold nextPayload at h
  dsimp only at h
  split_ifs at h
  cases h
  rw [slice, List.length_take, List.length_drop]
  omega

/-- A frame is read from its own bytes, whatever follows them. -/
theorem nextPayload_take {buf payload : Bytes} (h : nextPayload buf = some payload) {n : ℕ}
    (hn : 8 + payload.length ≤ n) (hbuf : n ≤ buf.length) (rest : Bytes) :
    nextPayload (buf.take n ++ rest) = some payload := by
  have hlen : (buf.take n ++ rest).length = n + rest.length := by
    rw [List.length_append, List.length_take, min_eq_left hbuf]
  unfold nextPayload at h ⊢
  dsimp only at h ⊢
  split_ifs at h with h₁ h₂ h₃ h₄
  cases h
  have hpayload : (slice buf 8 (ofLeBytes (slice buf 0 4))).length = ofLeBytes (slice buf 0 4) := by
    rw [slice, List.length_take, List.length_drop]
    omega
  rw [hpayload] at hn
  rw [slice_take_append buf rest (i := 0) (m := 4) (by omega) hbuf,
    slice_take_append buf rest (i := 4) (m := 4) (by omega) hbuf,
    slice_take_append buf rest (i := 8) hn hbuf, if_neg (by omega), if_neg h₂, if_neg (by omega),
    if_neg h₄]

theorem readFrame_none_iff {buf : Bytes} : readFrame buf = none ↔
    ∀ payload, nextPayload buf = some payload → ∀ e, WalEntry.decodePayload payload ≠ .ok e := by
  rw [readFrame]
  cases nextPayload buf with
  | none =>
    constructor
    · intro _ payload hp
      cases hp
    · exact fun _ => rfl
  | some payload =>
    dsimp only
    cases hd : WalEntry.decodePayload payload with
    | ok e =>
      constructor
      · intro h
        cases h
      · exact fun h => absurd hd (h payload rfl e)
    | error err =>
      constructor
      · intro _ p hp e he
        cases hp
        rw [hd] at he
        cases he
      · exact fun _ => rfl

/-- The bytes of a frame that is read, and the entry whatever follows. -/
theorem readFrame_split {buf rest : Bytes} {e : WalEntry} (h : readFrame buf = some (e, rest)) :
    ∃ payload head, nextPayload buf = some payload ∧ head.length = 8 + payload.length ∧
      buf = head ++ rest ∧ ∀ x, readFrame (head ++ x) = some (e, x) := by
  rw [readFrame] at h
  cases hp : nextPayload buf with
  | none =>
    rw [hp] at h
    cases h
  | some payload =>
    rw [hp] at h
    dsimp only at h
    cases hd : WalEntry.decodePayload payload with
    | error err =>
      rw [hd] at h
      cases h
    | ok e' =>
      rw [hd] at h
      cases h
      have hlen := nextPayload_length hp
      have hhead : (buf.take (8 + payload.length)).length = 8 + payload.length := by
        rw [List.length_take, min_eq_left hlen]
      refine ⟨payload, buf.take (8 + payload.length), rfl, hhead,
        (List.take_append_drop _ _).symm, fun x => ?_⟩
      rw [readFrame, nextPayload_take hp le_rfl hlen]
      dsimp only
      rw [hd, List.drop_left' hhead]

/-! ## The whole of a buffer -/

/-- What is left of a buffer where reading stops. -/
def leftover : ℕ → Bytes → Bytes
  | 0, buf => buf
  | fuel + 1, buf =>
    match readFrame buf with
    | none => buf
    | some (_, rest) => leftover fuel rest

def unread (buf : Bytes) : Bytes := leftover buf.length buf

/-- The bytes hold these entries, and what follows them is read after them. -/
def Whole (done : Bytes) (es : List WalEntry) : Prop :=
  ∀ x, decodeFrames (done ++ x) = es ++ decodeFrames x

theorem Whole.nil : Whole [] [] := fun _ => rfl

theorem Whole.append {done : Bytes} {es : List WalEntry} (h : Whole done es) {e : WalEntry}
    (he : e.Loggable) : Whole (done ++ e.frame) (es ++ [e]) := by
  intro x
  have hframe : decodeFrames (e.frame ++ x) = [e] ++ decodeFrames x := by
    have hone := decodeFrames_append (show ∀ e' ∈ [e], e'.Loggable by simpa using he) x
    rwa [frames, List.flatMap_singleton] at hone
  rw [List.append_assoc, h, hframe, List.append_assoc]

/-- The tail kept by opening, counted from the header on. -/
def intactLen (buf : Bytes) : ℕ := intactLoop buf.length buf

theorem intactLoop_fuel {fuel : ℕ} {buf : Bytes} (h : buf.length ≤ fuel) :
    intactLoop fuel buf = intactLen buf := by
  have hstep : ∀ n m : ℕ, ∀ buf : Bytes, buf.length ≤ n → buf.length ≤ m →
      intactLoop n buf = intactLoop m buf := by
    intro n
    induction n with
    | zero =>
      intro m buf hn hm
      rw [intactLoop_none (nextPayload_short (by omega)), intactLoop_none (nextPayload_short (by omega))]
    | succ n ih =>
      intro m buf hn hm
      cases m with
      | zero =>
        rw [intactLoop_none (nextPayload_short (by omega)),
          intactLoop_none (nextPayload_short (by omega))]
      | succ m =>
        rw [intactLoop, intactLoop]
        cases hp : nextPayload buf with
        | none => rfl
        | some payload =>
          have hlt := nextPayload_length hp
          exact congrArg (8 + payload.length + ·) (ih m _ (by rw [List.length_drop]; omega)
            (by rw [List.length_drop]; omega))
  exact hstep fuel buf.length buf h le_rfl

theorem intactLen_none {buf : Bytes} (h : nextPayload buf = none) : intactLen buf = 0 :=
  intactLoop_none h

theorem intactLen_some {buf payload : Bytes} (h : nextPayload buf = some payload) :
    intactLen buf = 8 + payload.length + intactLen (buf.drop (8 + payload.length)) := by
  rw [← intactLoop_fuel (Nat.le_succ _), intactLoop, h]
  exact congrArg (8 + payload.length + ·) (intactLoop_fuel (by rw [List.length_drop]; omega))

theorem intactLen_le (buf : Bytes) : intactLen buf ≤ buf.length := by
  induction hn : buf.length using Nat.strong_induction_on generalizing buf with
  | _ n ih =>
    cases hp : nextPayload buf with
    | none =>
      rw [intactLen_none hp]
      exact Nat.zero_le n
    | some payload =>
      have hlen := nextPayload_length hp
      have hrest := ih _ (by omega) (buf.drop (8 + payload.length)) List.length_drop
      rw [intactLen_some hp]
      omega

/-- A buffer is what is read and what is left, and the tail is cut in what is left. -/
theorem read_split (buf : Bytes) : ∃ done, buf = done ++ unread buf ∧ Whole done (decodeFrames buf) ∧
    readFrame (unread buf) = none ∧ intactLen buf = done.length + intactLen (unread buf) := by
  have hgeneral : ∀ fuel : ℕ, ∀ buf : Bytes, buf.length ≤ fuel → ∃ done,
      buf = done ++ leftover fuel buf ∧ Whole done (decodeFrames buf) ∧
        readFrame (leftover fuel buf) = none ∧
        intactLen buf = done.length + intactLen (leftover fuel buf) := by
    intro fuel
    induction fuel with
    | zero =>
      intro buf h
      obtain rfl := List.eq_nil_of_length_eq_zero (Nat.le_zero.mp h)
      exact ⟨[], rfl, Whole.nil, rfl, rfl⟩
    | succ fuel ih =>
      intro buf h
      rw [leftover]
      cases hr : readFrame buf with
      | none =>
        refine ⟨[], rfl, ?_, hr, (Nat.zero_add _).symm⟩
        rw [decodeFrames_none hr]
        exact Whole.nil
      | some step =>
        obtain ⟨e, rest⟩ := step
        obtain ⟨done, hbuf, hwhole, hnone, hlen⟩ := ih rest (by
          have hlt := readFrame_length hr
          omega)
        obtain ⟨payload, head, hp, hhead, hsplit, hread⟩ := readFrame_split hr
        refine ⟨head ++ done, ?_, ?_, hnone, ?_⟩
        · rw [List.append_assoc, ← hbuf]
          exact hsplit
        · intro x
          rw [List.append_assoc, decodeFrames_some (hread _), hwhole, decodeFrames_some hr,
            List.cons_append]
        · dsimp only
          rw [intactLen_some hp, hsplit, List.drop_left' hhead, hlen, List.length_append, hhead]
          omega
  exact hgeneral buf.length buf le_rfl

/-! ## The tail that is kept -/

/-- Where no intact frame is left unread, what follows the tail is read. -/
theorem cut_whole {buf : Bytes} (h : nextPayload (unread buf) = none) :
    Whole (buf.take (intactLen buf)) (decodeFrames buf) := by
  obtain ⟨done, hbuf, hwhole, -, hlen⟩ := read_split buf
  rw [intactLen_none h, Nat.add_zero] at hlen
  have hdone : buf.take (intactLen buf) = done := by
    have hcut : (done ++ unread buf).take done.length = done := List.take_left
    rwa [← hbuf, ← hlen] at hcut
  rw [hdone]
  exact hwhole

/-- Where an intact frame is left unread, nothing behind the tail is read. -/
theorem cut_hidden {buf payload : Bytes} (h : nextPayload (unread buf) = some payload) (x : Bytes) :
    decodeFrames (buf.take (intactLen buf) ++ x) = decodeFrames buf := by
  obtain ⟨done, hbuf, hwhole, hnone, hlen⟩ := read_split buf
  have htail : buf.take (intactLen buf) = done ++ (unread buf).take (intactLen (unread buf)) := by
    have hcut : (done ++ unread buf).take (done.length + intactLen (unread buf)) =
        done ++ (unread buf).take (intactLen (unread buf)) := List.take_length_add_append _
    rwa [← hbuf, ← hlen] at hcut
  have hkept : nextPayload ((unread buf).take (intactLen (unread buf)) ++ x) = some payload := by
    apply nextPayload_take h _ (intactLen_le _)
    rw [intactLen_some h]
    omega
  have hstop : readFrame ((unread buf).take (intactLen (unread buf)) ++ x) = none := by
    rw [readFrame_none_iff] at hnone ⊢
    intro p hp
    rw [hkept] at hp
    exact hnone p (h.trans hp)
  rw [htail, List.append_assoc, hwhole, decodeFrames_none hstop, List.append_nil]

/-- Cutting the tail changes nothing that is read. -/
theorem decodeFrames_cut (buf : Bytes) :
    decodeFrames (buf.take (intactLen buf)) = decodeFrames buf := by
  cases h : nextPayload (unread buf) with
  | none =>
    have hread := cut_whole h []
    rwa [List.append_nil, decodeFrames_none (show readFrame [] = none from rfl), List.append_nil] at hread
  | some payload =>
    have hread := cut_hidden h []
    rwa [List.append_nil] at hread

end Adabt.Storage
