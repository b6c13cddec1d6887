import Adabt.Library.Framing
import Adabt.Server.Sessions

/-! # Serving a connection

Bytes arrive in reads of any size. The server collects them, answers every whole
frame and stops at the first bytes that are no frame. The client collects until
one reply is whole. -/

set_option autoImplicit false

namespace Adabt.Server
open Adabt.Core Adabt.Library Adabt.Storage

/-- What one `read` brings; nothing would be the end of the stream. -/
structure Chunk where
  bytes : Bytes
  some : bytes ≠ []
  fits : bytes.length ≤ 16 * 1024

def received (reads : List Chunk) : Bytes := (reads.map Chunk.bytes).flatten

namespace Frame

def framing : Framing UInt8 Frame Error := ⟨encode, decode⟩

theorem framing_encode (f : Frame) : framing.encode f = f.encode := rfl

theorem framing_decode (buf : Bytes) : framing.decode buf = decode buf := rfl

theorem header_length (f : Frame) : f.header.length = headerLen := by
  simp [header, headerLen]

theorem encode_length (f : Frame) : f.encode.length = headerLen + f.body.length := by
  rw [encode, List.length_append, header_length]

/-- Of a frame whose header has come, the body may still be on its way. -/
theorem decode_header (f : Frame) (hlen : f.body.length ≤ maxFrame) (part : Bytes) :
    decode (f.header ++ part) = if part.length < f.body.length then .ok none else
      .ok (some ({ f with body := part.take f.body.length }, headerLen + f.body.length)) := by
  have hmagic : field (f.header ++ part) 0 4 = magic := by
    change ofLeBytes (leBytes 4 magic) = magic
    exact ofLeBytes_leBytes (by decide)
  have hversion : field (f.header ++ part) 4 2 = protocolVersion := by
    change ofLeBytes (leBytes 2 protocolVersion) = protocolVersion
    exact ofLeBytes_leBytes (by decide)
  have hid : field (f.header ++ part) 8 8 = f.requestId.toNat := by
    change ofLeBytes (leBytes 8 f.requestId.toNat) = _
    exact ofLeBytes_leBytes f.requestId.toNat_lt
  have hsize : field (f.header ++ part) 16 4 = f.body.length := by
    change ofLeBytes (leBytes 4 f.body.length) = _
    exact ofLeBytes_leBytes (by rw [maxFrame] at hlen; omega)
  have hkind : (f.header ++ part).getD 6 0 = f.kind := rfl
  have hflags : (f.header ++ part).getD 7 0 = f.flags := rfl
  have hlong : (f.header ++ part).length = headerLen + part.length := by
    rw [List.length_append, header_length]
  have hbody : ((f.header ++ part).take (headerLen + f.body.length)).drop headerLen =
      part.take f.body.length := by
    rw [List.take_append, List.drop_append, header_length, List.take_of_length_le (by
      rw [header_length]; omega), ← header_length f, List.drop_length, Nat.sub_self, List.drop_zero,
      List.nil_append, Nat.add_sub_cancel_left]
  rw [decode, hlong, if_neg (by omega), if_neg (fun h => h hmagic), if_neg (fun h => h hversion),
    hsize, if_neg (by omega), hid, hkind, hflags]
  dsimp only
  rw [hbody, UInt64.ofNat_toNat]
  by_cases hpart : part.length < f.body.length
  · rw [if_pos hpart, if_pos (by omega)]
  · rw [if_neg hpart, if_neg (by omega)]

theorem decode_short {buf : Bytes} (h : buf.length < headerLen) : decode buf = .ok none := by
  rw [decode, if_pos h]

theorem decode_nil : framing.decode [] = .ok none := rfl

theorem carries {f : Frame} (hlen : f.body.length ≤ maxFrame) : framing.Carries f where
  whole rest := by
    rw [framing_encode, framing_decode, encode_length, encode, List.append_assoc,
      decode_header f hlen, if_neg (by rw [List.length_append]; omega), List.take_left]
  waits part rest h hrest := by
    rw [framing_encode, encode] at h
    rw [framing_decode]
    by_cases hshort : part.length < headerLen
    · exact decode_short hshort
    · obtain ⟨more, rfl⟩ := List.prefix_of_prefix_length_le (List.prefix_append f.header f.body)
        (h ▸ List.prefix_append part rest) (by rw [header_length]; omega)
      rw [List.append_assoc] at h
      have hbody := List.append_cancel_left h
      have hpos := List.length_pos_of_ne_nil hrest
      rw [decode_header f hlen, if_pos (by rw [hbody, List.length_append]; omega)]

/-- No frame with a longer body is ever decoded. -/
theorem body_of_decode {buf : Bytes} {f : Frame} {used : ℕ}
    (h : decode buf = .ok (some (f, used))) : f.body.length ≤ maxFrame := by
  unfold decode at h
  dsimp only at h
  split_ifs at h with hshort hmagic hversion hlong hpart
  · cases h
  · cases h
  · cases h
    rw [List.length_drop, List.length_take]
    omega

end Frame

/-! ## The server's side -/

variable {δ : Type}

/-- A connection as it is served: the frames answered so far and what was sent. -/
structure Line (δ : Type) where
  connection : Connection δ
  answered : List Frame
  sent : Bytes

def Line.opened (c : Connection δ) : Line δ := ⟨c, [], []⟩

/-- Answer one frame and send the reply. -/
def process (E : Engine δ) (auth : AuthConfig) (frame : Frame) : EStateM Fault (Line δ) Unit :=
  fun line =>
    match respond E auth frame line.connection with
    | .ok reply c => .ok () ⟨c, line.answered ++ [frame], line.sent ++ reply.encode⟩
    | .error fault c => .error fault { line with connection := c }

/-- Serve one connection to completion. -/
def handle (E : Engine δ) (auth : AuthConfig) (reads : List Chunk) : EStateM Fault (Line δ) Unit :=
  Frame.framing.feed (maxFrame + headerLen) (process E auth) (reads.map Chunk.bytes) []

/-- The frames of the stream are processed in order, whatever the reads were. -/
theorem handle_eq (E : Engine δ) (auth : AuthConfig) {frames : List Frame} {reads : List Chunk}
    (hlen : ∀ f ∈ frames, f.body.length ≤ maxFrame)
    (h : received reads = Frame.framing.stream frames) :
    handle E auth reads = forEach (process E auth) frames := by
  refine Framing.feed_eq Frame.decode_nil _ (fun f hf => Frame.carries (hlen f hf))
    (fun f hf => ?_) ⟨?_, Frame.decode_nil⟩
  · have := hlen f hf
    rw [Frame.framing_encode, Frame.encode_length]
    omega
  · rw [List.nil_append, ← h, received]

/-- No `Auth` frame once the connection holds a role. -/
def Calm (frame : Frame) (c : Connection δ) : Prop :=
  c.role ≠ none → RequestKind.fromCode frame.kind ≠ some .auth

/-- Only an `Auth` frame on a connection that holds a role makes the server panic. -/
theorem respond_calm (E : Engine δ) (auth : AuthConfig) (frame : Frame) (c : Connection δ) :
    Calm frame c ↔ ∃ reply c', respond E auth frame c = .ok reply c' := by
  constructor
  · intro hcalm
    cases hrule : rule auth c.role frame with
    | reply reply role =>
      refine ⟨reply, { c with role := role }, ?_⟩
      unfold respond
      rw [hrule]
    | forward kind =>
      obtain ⟨hkind, known, hknown, -⟩ := rule_forward hrule
      obtain ⟨reply, c', h, -⟩ := respond_forward E hrule fun hauth =>
        hcalm (by rw [hknown]; simp) (hauth ▸ hkind)
      exact ⟨reply, c', h⟩
  · rintro ⟨reply, c', h⟩ hrole hkind
    obtain ⟨known, hknown⟩ := Option.ne_none_iff_exists'.mp hrole
    have hrule : rule auth c.role frame = .forward .auth := by
      unfold rule
      rw [hkind, hknown]
      cases known <;> rfl
    unfold respond at h
    rw [hrule] at h
    cases h

/-- Every frame is answered exactly when none of them makes the server panic. -/
theorem process_all (E : Engine δ) (auth : AuthConfig) (frames : List Frame) (line : Line δ) :
    Guarded (answer E auth) Calm line.connection frames ↔
      ∃ line', forEach (process E auth) frames line = .ok () line' ∧
        line'.answered = line.answered ++ frames ∧
        line'.connection = run (answer E auth) line.connection frames := by
  induction frames generalizing line with
  | nil =>
    rw [List.append_nil]
    exact ⟨fun _ => ⟨line, rfl, rfl, rfl⟩, fun _ => trivial⟩
  | cons frame frames ih =>
    by_cases hcalm : Calm frame line.connection
    · obtain ⟨reply, c', hc'⟩ := (respond_calm E auth frame line.connection).mp hcalm
      have hanswer : answer E auth frame line.connection = c' := by rw [answer, exec, hc']
      have hstep : forEach (process E auth) (frame :: frames) line =
          forEach (process E auth) frames
            ⟨c', line.answered ++ [frame], line.sent ++ reply.encode⟩ := by
        change EStateM.bind (process E auth frame) _ line = _
        rw [EStateM.bind, process, hc']
      have hnext := ih ⟨c', line.answered ++ [frame], line.sent ++ reply.encode⟩
      rw [List.append_assoc, List.singleton_append] at hnext
      rw [Guarded, and_iff_right hcalm, hanswer, hstep, run_cons, hanswer]
      exact hnext
    · refine ⟨fun h => absurd h.1 hcalm, ?_⟩
      rintro ⟨line', h, -⟩
      cases hr : respond E auth frame line.connection with
      | ok reply c' => exact absurd ((respond_calm E auth frame line.connection).mpr
          ⟨reply, c', hr⟩) hcalm
      | error fault c' =>
        change EStateM.bind (process E auth frame) _ line = _ at h
        rw [EStateM.bind, process, hr] at h
        cases h

/-! ## The client's side -/

def closedEarly (n : ℕ) : Error :=
  .corruption ("the server closed the connection with " ++ toString n ++ " of at least " ++
    toString headerLen ++ " reply bytes received")

/-- A reply has to carry the id of the request. -/
def correlate (id : UInt64) (reply : Frame) : Except Error Frame :=
  if reply.requestId ≠ id then
    .error (.corruption ("reply is for request " ++ toString reply.requestId.toNat ++ " but " ++
      toString id.toNat ++ " was sent"))
  else .ok reply

/-- Take a whole frame from the buffer, or go on reading. -/
def await (id : UInt64) (read : Bytes → Except Error Frame) (buf : Bytes) : Except Error Frame :=
  match Frame.decode buf with
  | .error e => .error e
  | .ok (some (reply, _)) => correlate id reply
  | .ok none => read buf

def nextReply (id : UInt64) : List Chunk → Bytes → Except Error Frame
  | [] => await id fun buf => .error (closedEarly buf.length)
  | chunk :: reads => await id fun buf => nextReply id reads (buf ++ chunk.bytes)

theorem await_encode {reply : Frame} (hlen : reply.body.length ≤ maxFrame)
    (read : Bytes → Except Error Frame) : await reply.requestId read reply.encode = .ok reply := by
  have hwhole := (Frame.carries hlen).whole []
  rw [Frame.framing_decode, Frame.framing_encode, List.append_nil] at hwhole
  rw [await, hwhole]
  exact if_neg fun hid => hid rfl

/-- The reply is read whole, whatever the reads were. -/
theorem nextReply_encode {reply : Frame} (hlen : reply.body.length ≤ maxFrame) {reads : List Chunk}
    {buf : Bytes} (h : reply.encode = buf ++ received reads) :
    nextReply reply.requestId reads buf = .ok reply := by
  induction reads generalizing buf with
  | nil =>
    have hbuf : buf = reply.encode := by rw [h, received, List.map_nil, List.flatten_nil,
      List.append_nil]
    rw [nextReply, hbuf]
    exact await_encode hlen _
  | cons chunk reads ih =>
    by_cases hrest : received (chunk :: reads) = []
    · rw [nextReply, show buf = reply.encode by rw [h, hrest, List.append_nil]]
      exact await_encode hlen _
    · have hwait : Frame.decode buf = .ok none := (Frame.carries hlen).waits _ _ h hrest
      rw [nextReply, await, hwait]
      apply ih
      rw [h, received, received, List.map_cons, List.flatten_cons, List.append_assoc]

/-- Whatever the client takes for a reply is within the limit. -/
theorem body_of_await {id : UInt64} {read : Bytes → Except Error Frame} {buf : Bytes}
    {reply : Frame} (h : await id read buf = .ok reply)
    (hread : read buf = .ok reply → reply.body.length ≤ maxFrame) :
    reply.body.length ≤ maxFrame := by
  cases hd : Frame.decode buf with
  | error e =>
    rw [await, hd] at h
    cases h
  | ok found =>
    rw [await, hd] at h
    cases found with
    | none => exact hread h
    | some found =>
      dsimp only at h
      rw [correlate] at h
      split_ifs at h
      cases h
      exact Frame.body_of_decode hd

theorem body_of_nextReply {id : UInt64} {reads : List Chunk} {buf : Bytes} {reply : Frame}
    (h : nextReply id reads buf = .ok reply) : reply.body.length ≤ maxFrame := by
  induction reads generalizing buf with
  | nil => exact body_of_await h fun hclosed => by cases hclosed
  | cons chunk reads ih => exact body_of_await h fun hnext => ih hnext

end Adabt.Server
