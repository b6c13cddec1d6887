import Adabt.Server.Bodies
import Adabt.Server.Handle

/-! # What the wire carries

The server answers the frames of a stream however it arrives, until one makes it
panic. The length of a reply is checked by the client alone, so a result that
does not fit a frame is sent and then refused. -/

set_option autoImplicit false

namespace Adabt.Server
open Adabt.Core Adabt.Ir Adabt.Library Adabt.Storage

variable {δ : Type}

/-- However the stream is cut into reads, the server answers its frames in order, once each. -/
def Reassembled (E : Engine δ) (auth : AuthConfig) (c : Connection δ) (frames : List Frame) : Prop :=
  ∀ reads, received reads = Frame.framing.stream frames →
    ∃ line, handle E auth reads (.opened c) = .ok () line ∧ line.answered = frames ∧
      line.connection = run (answer E auth) c frames

/-- However the reply is cut into reads, the client takes it for what it is. -/
def Accepted (reply : Frame) : Prop :=
  ∀ reads, received reads = reply.encode → nextReply reply.requestId reads [] = .ok reply

/-- The frame is a query that is let through, and these are the rows the engine finds. -/
def Finds (E : Engine δ) (auth : AuthConfig) (frame : Frame) (c : Connection δ)
    (rows : List (RecordId × Record)) : Prop :=
  rule auth c.role frame = .forward .query ∧ ∃ spec db,
    QuerySpec.decode frame.body = .ok spec ∧ E.query spec.toPlan c.db = .ok rows db

/-- The client gets back the rows that were dispatched. -/
def Delivered (E : Engine δ) (auth : AuthConfig) (frame : Frame) (c : Connection δ)
    (rows : List (RecordId × Record)) : Prop :=
  ∃ reply c', respond E auth frame c = .ok reply c' ∧ Accepted reply ∧
    decodeRows reply.body = .ok rows

theorem exists_reads (bytes : Bytes) : ∃ reads, received reads = bytes := by
  induction bytes with
  | nil => exact ⟨[], rfl⟩
  | cons b bytes ih =>
    obtain ⟨reads, h⟩ := ih
    refine ⟨⟨[b], List.cons_ne_nil b [], by simp⟩ :: reads, ?_⟩
    rw [received, List.map_cons, List.flatten_cons, ← received, h]
    rfl

theorem reassembled (E : Engine δ) (auth : AuthConfig) (c : Connection δ) {frames : List Frame}
    (hlen : ∀ f ∈ frames, f.body.length ≤ maxFrame) :
    Reassembled E auth c frames ↔ Guarded (answer E auth) Calm c frames := by
  have hall := process_all E auth frames (.opened c)
  constructor
  · intro h
    obtain ⟨reads, hreads⟩ := exists_reads (Frame.framing.stream frames)
    have hline := h reads hreads
    rw [handle_eq E auth hlen hreads] at hline
    exact hall.mpr hline
  · intro h reads hreads
    rw [handle_eq E auth hlen hreads]
    exact hall.mp h

theorem accepted_iff (reply : Frame) : Accepted reply ↔ reply.body.length ≤ maxFrame := by
  constructor
  · intro h
    obtain ⟨reads, hreads⟩ := exists_reads reply.encode
    exact body_of_nextReply (h reads hreads)
  · intro hlen reads hreads
    exact nextReply_encode hlen (by rw [List.nil_append, hreads])

/-- A query that is let through is answered with the rows it finds. -/
theorem Finds.reply {E : Engine δ} {auth : AuthConfig} {frame : Frame} {c : Connection δ}
    {rows : List (RecordId × Record)} (h : Finds E auth frame c rows) {body : Bytes}
    (hbody : encodeRows rows = .ok body) : ∃ c',
      respond E auth frame c = .ok (.new StatusCode.ok.code frame.requestId body) c' := by
  obtain ⟨hrule, spec, db, hspec, hrows⟩ := h
  have hparse : Request.parse .query frame.body = some (.ok (.query spec)) := by
    rw [Request.parse, hspec]
    rfl
  have hserve : serve E (.query spec) c.db = .ok body db := by
    change EStateM.bind (E.query spec.toPlan) (fun rows => attempt (encodeRows rows)) c.db = _
    rw [EStateM.bind, hrows]
    change attempt (encodeRows rows) db = _
    rw [hbody]
    rfl
  refine ⟨{ c with db := db }, ?_⟩
  unfold respond
  rw [hrule]
  dsimp only
  rw [dispatch, hparse]
  dsimp only
  rw [hserve]

theorem delivered {E : Engine δ} {auth : AuthConfig} {frame : Frame} {c : Connection δ}
    {rows : List (RecordId × Record)} (h : Finds E auth frame c rows) :
    Delivered E auth frame c rows ↔
      4 + rowsLen rows ≤ maxFrame ∧ ∀ r ∈ rows, r.2.NestedAtMost maxDepth := by
  obtain ⟨body, hbody, hlen, hread⟩ := rows_write rows
  obtain ⟨c', hrespond⟩ := h.reply hbody
  have hbound : maxFrame < 2 ^ 32 := by decide
  constructor
  · rintro ⟨reply, c'', hreply, haccepted, hrows⟩
    rw [hrespond] at hreply
    cases hreply
    have hsize : body.length ≤ maxFrame := (accepted_iff _).mp haccepted
    rw [hlen] at hsize
    exact ⟨hsize, (hread (by omega)).mp hrows⟩
  · rintro ⟨hsize, hnest⟩
    refine ⟨_, c', hrespond, (accepted_iff _).mpr ?_, (hread (by omega)).mpr hnest⟩
    change body.length ≤ maxFrame
    rwa [hlen]

/-- What the wire carries unchanged: the frames of every stream up to a panic, every query
whose strings are shorter than 2^32 bytes, and every result that fits a frame and is not
nested too deep. -/
theorem wire_carries_iff (E : Engine δ) (auth : AuthConfig) :
    (∀ c frames, (∀ f ∈ frames, f.body.length ≤ maxFrame) →
      (Reassembled E auth c frames ↔ Guarded (answer E auth) Calm c frames)) ∧
    (∀ q : QuerySpec, q.NestedAtMost maxDepth → q.encode.length < 2 ^ 64 →
      (q.Carried ↔ q.Addressable)) ∧
    (∀ frame c reply c', respond E auth frame c = .ok reply c' →
      (Accepted reply ↔ reply.body.length ≤ maxFrame)) ∧
    ∀ frame c rows, Finds E auth frame c rows →
      (Delivered E auth frame c rows ↔
        4 + rowsLen rows ≤ maxFrame ∧ ∀ r ∈ rows, r.2.NestedAtMost maxDepth) :=
  ⟨fun c _ hlen => reassembled E auth c hlen, fun _ hn hlen => QuerySpec.carried hn hlen,
    fun _ _ reply _ _ => accepted_iff reply, fun _ _ _ h => delivered h⟩

/-! ## A scan larger than a frame -/

/-- 2^23 empty records. -/
def manyRows : List (RecordId × Record) := List.replicate (2 ^ 23) (0, ∅)

def fullEngine : Engine Unit := { emptyEngine with query := fun _ => pure manyRows }

def scanAll : QuerySpec := ⟨"t", none, 0⟩

def scanFrame : Frame := .new 6 1 scanAll.encode

def openListener : AuthConfig := ⟨none, none, ∅⟩

/-- The server answers the scan with `Ok`, and no client accepts the reply. -/
theorem scan_refused : Finds fullEngine openListener scanFrame (.opened openListener ()) manyRows ∧
    ¬ Delivered fullEngine openListener scanFrame (.opened openListener ()) manyRows := by
  have hfinds : Finds fullEngine openListener scanFrame (.opened openListener ()) manyRows := by
    have hcarried : scanAll.Carried := by
      refine (QuerySpec.carried ?_ (by decide)).mpr ⟨by decide, ?_⟩
      · intro field op v h
        cases h
      · intro field op v h
        cases h
    exact ⟨rfl, scanAll, (), hcarried.read, rfl⟩
  refine ⟨hfinds, fun h => ?_⟩
  have hsize := ((delivered hfinds).mp h).1
  have hcount := length_le_rowsLen manyRows
  rw [manyRows, List.length_replicate, ← manyRows] at hcount
  rw [maxFrame] at hsize
  omega

end Adabt.Server
