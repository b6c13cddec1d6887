import Adabt.Library.Program

/-! # Frames on a stream

A decoder looks at the front of a buffer and asks for more while a frame is not
whole. A loop that appends what each read brings and acts on every whole frame
acts on the frames of the stream, one after another, however the stream was cut
into reads. -/

set_option autoImplicit false

namespace Adabt.Library

variable {α φ ε η σ : Type}

/-- How frames go on a stream. Decoding gives the first frame and the length it had, or
`none` for a buffer that holds only part of one. -/
structure Framing (α φ η : Type) where
  encode : φ → List α
  decode : List α → Except η (Option (φ × ℕ))

namespace Framing

variable (F : Framing α φ η)

/-- The frame is found at the front of a stream, and not before all of it has come. -/
structure Carries (f : φ) : Prop where
  whole : ∀ rest, F.decode (F.encode f ++ rest) = .ok (some (f, (F.encode f).length))
  waits : ∀ part rest, F.encode f = part ++ rest → rest ≠ [] → F.decode part = .ok none

/-- The stream of these frames. -/
def stream (frames : List φ) : List α := frames.flatMap F.encode

/-- The buffer holds the beginning of the stream and no whole frame of it. -/
structure Partway (frames : List φ) (buf rest : List α) : Prop where
  split : F.stream frames = buf ++ rest
  waits : F.decode buf = .ok none

variable {F}

theorem Carries.nonempty (hnil : F.decode [] = .ok none) {f : φ} (h : F.Carries f) :
    0 < (F.encode f).length := by
  apply List.length_pos_of_ne_nil
  intro he
  have hwhole := h.whole []
  rw [he, List.append_nil, hnil] at hwhole
  cases hwhole

/-- A beginning of the stream is whole frames and a part of the next. -/
theorem prefix_split (hnil : F.decode [] = .ok none) {frames : List φ}
    (hc : ∀ f ∈ frames, F.Carries f) {buf rest : List α} (h : F.stream frames = buf ++ rest) :
    ∃ done left part, frames = done ++ left ∧ buf = F.stream done ++ part ∧
      F.Partway left part rest := by
  induction frames generalizing buf with
  | nil =>
    obtain ⟨rfl, rfl⟩ := List.append_eq_nil_iff.mp h.symm
    exact ⟨[], [], [], rfl, rfl, rfl, hnil⟩
  | cons f frames ih =>
    rw [stream, List.flatMap_cons, ← stream] at h
    rcases List.append_eq_append_iff.mp h with ⟨more, hbuf, hmore⟩ | ⟨more, hf, hrest⟩
    · obtain ⟨done, left, part, hframes, hdone, hpart⟩ :=
        ih (fun g hg => hc g (List.mem_cons_of_mem _ hg)) hmore
      refine ⟨f :: done, left, part, by rw [hframes, List.cons_append], ?_, hpart⟩
      rw [hbuf, hdone, stream, stream, List.flatMap_cons, List.append_assoc]
    · by_cases hmore : more = []
      · rw [hmore, List.append_nil] at hf
        rw [hmore, List.nil_append] at hrest
        refine ⟨[f], frames, [], rfl, ?_, hrest.symm, hnil⟩
        rw [stream, List.flatMap_singleton, List.append_nil, hf]
      · refine ⟨[], f :: frames, buf, rfl, rfl, ?_, ?_⟩
        · rw [stream, List.flatMap_cons, ← stream, h]
        · exact (hc f List.mem_cons_self).waits buf more hf hmore

/-- What waits is shorter than the frame it is a part of. -/
theorem Partway.length_le {room : ℕ} {frames : List φ} {part rest : List α}
    (h : F.Partway frames part rest)
    (hc : ∀ f ∈ frames, F.Carries f ∧ (F.encode f).length ≤ room) : part.length ≤ room := by
  have hsplit := h.split
  cases frames with
  | nil =>
    rw [(List.append_eq_nil_iff.mp hsplit.symm).1]
    exact Nat.zero_le _
  | cons f frames =>
    obtain ⟨hf, hroom⟩ := hc f List.mem_cons_self
    rw [stream, List.flatMap_cons, ← stream] at hsplit
    rcases List.append_eq_append_iff.mp hsplit with ⟨more, hmore, -⟩ | ⟨more, hmore, -⟩
    · have hwhole := hf.whole more
      rw [← hmore, h.waits] at hwhole
      cases hwhole
    · rw [hmore, List.length_append] at hroom
      omega

/-! ## The loop -/

variable (F)

/-- Act on the whole frames at the front of the buffer. What is left of it waits for more;
after an error nothing does. -/
def drain (act : φ → EStateM ε σ Unit) : ℕ → List α → EStateM ε σ (Option (List α))
  | 0, buf => return some buf
  | fuel + 1, buf =>
    match F.decode buf with
    | .ok none => return some buf
    | .ok (some (f, used)) => do
      act f
      drain act fuel (buf.drop used)
    | .error _ => return none

/-- Read until the stream ends, it is no longer frames, or more waits than a frame can
hold. -/
def feed (room : ℕ) (act : φ → EStateM ε σ Unit) : List (List α) → List α → EStateM ε σ Unit
  | [], _ => return ()
  | chunk :: reads, buf => do
    match ← F.drain act (buf ++ chunk).length (buf ++ chunk) with
    | none => return ()
    | some rest => if room < rest.length then return () else feed room act reads rest

variable {F}

theorem forEach_append (act : φ → EStateM ε σ Unit) (xs ys : List φ) :
    forEach act (xs ++ ys) = forEach act xs >>= fun _ => forEach act ys := by
  induction xs with
  | nil => rfl
  | cons x xs ih => rw [List.cons_append, forEach, forEach, ih, bind_assoc]

/-- With fuel for every frame the rest is what is not whole. -/
theorem drain_eq (hnil : F.decode [] = .ok none) (act : φ → EStateM ε σ Unit) {frames : List φ}
    (hc : ∀ f ∈ frames, F.Carries f) {part : List α} (hpart : F.decode part = .ok none)
    {fuel : ℕ} (hfuel : (F.stream frames ++ part).length ≤ fuel) :
    F.drain act fuel (F.stream frames ++ part) = do
      forEach act frames
      return some part := by
  induction frames generalizing fuel with
  | nil =>
    cases fuel with
    | zero => rfl
    | succ fuel =>
      rw [stream, List.flatMap_nil, List.nil_append, drain, hpart]
      rfl
  | cons f frames ih =>
    have hpos := (hc f List.mem_cons_self).nonempty hnil
    rw [stream, List.flatMap_cons, List.append_assoc] at hfuel ⊢
    cases fuel with
    | zero =>
      rw [List.length_append] at hfuel
      omega
    | succ fuel =>
      rw [List.length_append] at hfuel
      rw [drain, (hc f List.mem_cons_self).whole]
      dsimp only
      rw [List.drop_left, ← stream, ih (fun g hg => hc g (List.mem_cons_of_mem _ hg)) (by
        rw [stream]
        omega), forEach, bind_assoc]

/-- However the stream is cut, the loop acts on its frames in order, once each. -/
theorem feed_eq (hnil : F.decode [] = .ok none) (act : φ → EStateM ε σ Unit) {room : ℕ}
    {frames : List φ} (hc : ∀ f ∈ frames, F.Carries f)
    (hroom : ∀ f ∈ frames, (F.encode f).length ≤ room) {reads : List (List α)} {buf : List α}
    (h : F.Partway frames buf reads.flatten) :
    F.feed room act reads buf = forEach act frames := by
  induction reads generalizing frames buf with
  | nil =>
    have hsplit := h.split
    rw [List.flatten_nil, List.append_nil] at hsplit
    cases frames with
    | nil => rfl
    | cons f frames =>
      have hwhole := (hc f List.mem_cons_self).whole (F.stream frames)
      rw [stream, List.flatMap_cons, ← stream] at hsplit
      rw [hsplit, h.waits] at hwhole
      cases hwhole
  | cons chunk reads ih =>
    have hsplit := h.split
    rw [List.flatten_cons, ← List.append_assoc] at hsplit
    obtain ⟨done, left, part, rfl, hbuf, hpart⟩ := prefix_split hnil hc hsplit
    rw [feed, hbuf, drain_eq hnil act (fun f hf => hc f (List.mem_append_left _ hf)) hpart.waits
      (Nat.le_refl _), bind_assoc, forEach_append, pure_bind]
    dsimp only
    rw [if_neg (Nat.not_lt.mpr (hpart.length_le fun f hf =>
      ⟨hc f (List.mem_append_right _ hf), hroom f (List.mem_append_right _ hf)⟩)), ih (fun f hf => hc f (List.mem_append_right _ hf))
      (fun f hf => hroom f (List.mem_append_right _ hf)) hpart]

end Framing

end Adabt.Library
