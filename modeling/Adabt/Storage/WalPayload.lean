import Adabt.Storage.Buffer
import Adabt.Storage.WalCodec

/-! # Payloads, read by position

The payload reader as the code has it: a position in a buffer, and slices that end
the program where there is nothing to slice. No buffer makes it do so, what was
written is read back, and no beginning of it is read as anything. -/

set_option autoImplicit false

namespace Adabt.Storage
open Adabt.Core Adabt.Library

/-! ## The reader -/

namespace PayloadReader.Checked

def refuse (_pos _left : ℕ) : String := "truncated wal entry"

def take : ℕ → BufferReader Bytes := BufferReader.take refuse

def u8 : BufferReader UInt8 := BufferReader.u8 refuse

def u64 : BufferReader ℕ := BufferReader.number refuse 8

def varint : BufferReader ℕ := do
  let v ← BufferReader.varint
  return v.toNat

def text (b : Bytes) : Except Fault String :=
  match decodeUtf8 b with
  | some s => .ok s
  | none => .error (.error (.corruption "invalid utf-8 in wal"))

def string : BufferReader String := do
  let n ← varint
  let b ← take n
  Reading.checked (text b)

def blob : BufferReader Bytes := do
  let n ← varint
  take n

def recordId : BufferReader RecordId := do
  let n ← varint
  return Fin.ofNat (2 ^ 64) n

end PayloadReader.Checked

open PayloadReader.Checked

def presenceOf (collection : String) (presence : UInt8) : BufferReader WalOp :=
  match presence with
  | 0 => return .setClusterField collection none
  | 1 => do
    let f ← string
    return .setClusterField collection (some f)
  | other =>
    throw (.error (.corruption ("invalid cluster-field presence byte " ++ toString other)))

def WalOp.readBody (code : UInt8) : BufferReader WalOp :=
  match code with
  | 1 => do
    let collection ← string
    let id ← recordId
    let bytes ← blob
    return .insert collection id bytes
  | 2 => do
    let collection ← string
    let id ← recordId
    let bytes ← blob
    return .update collection id bytes
  | 3 => do
    let collection ← string
    let id ← recordId
    return .delete collection id
  | 4 => do
    let name ← string
    let schema ← blob
    return .createCollection name schema
  | 5 => do
    let name ← string
    return .dropCollection name
  | 6 => do
    let txn ← varint
    return .commit txn
  | 7 => do
    let flushedLsn ← varint
    return .checkpoint flushedLsn
  | 8 => do
    let collection ← string
    let field ← string
    let kind ← string
    return .createIndex collection field kind
  | 9 => do
    let collection ← string
    let field ← string
    let kind ← string
    return .dropIndex collection field kind
  | 10 => do
    let target ← string
    let source ← string
    return .adoptMigration target source
  | 11 => do
    let collection ← string
    let schema ← blob
    return .alterSchemaInPlace collection schema
  | 12 => do
    let collection ← string
    let presence ← u8
    presenceOf collection presence
  | other => throw (.error (.corruption ("unknown wal opcode " ++ toString other)))

def WalEntry.readPayload : BufferReader WalEntry := do
  let lsn ← u64
  let nanos ← u64
  let txn ← u64
  let code ← u8
  let op ← WalOp.readBody code
  return ⟨lsn, nanos, txn, op⟩

/-! ## Staying within the payload -/

namespace PayloadReader.Checked
open Reading

theorem contained_varint : Contained Fault.Corrupted 1 varint :=
  BufferReader.contained_varint.bind_first fun _ => contained_pure _

theorem contained_text (b : Bytes) :
    Contained Fault.Corrupted 0 (checked (text b) : BufferReader String) := by
  unfold text
  cases decodeUtf8 b with
  | some s => exact contained_pure s
  | none => exact contained_throw (Fault.corrupted _) 0

theorem contained_string : Contained Fault.Corrupted 1 string :=
  contained_varint.bind_first fun _ => BufferReader.contained_bytes.seq contained_text

theorem contained_blob : Contained Fault.Corrupted 1 blob :=
  contained_varint.bind_first fun n => BufferReader.contained_bytes.le (Nat.zero_le n)

theorem contained_recordId : Contained Fault.Corrupted 1 recordId :=
  contained_varint.bind_first fun _ => contained_pure _

theorem contained_presenceOf (collection : String) (presence : UInt8) :
    Contained Fault.Corrupted 0 (presenceOf collection presence) := by
  unfold presenceOf
  split
  · exact contained_pure _
  · exact contained_string.seq fun f => contained_pure _
  · exact contained_throw (Fault.corrupted _) 0

theorem contained_readBody (code : UInt8) : Contained Fault.Corrupted 0 (WalOp.readBody code) := by
  unfold WalOp.readBody
  split
  · exact contained_string.seq fun c => contained_recordId.seq fun id => contained_blob.seq
      fun b => contained_pure _
  · exact contained_string.seq fun c => contained_recordId.seq fun id => contained_blob.seq
      fun b => contained_pure _
  · exact contained_string.seq fun c => contained_recordId.seq fun id => contained_pure _
  · exact contained_string.seq fun n => contained_blob.seq fun b => contained_pure _
  · exact contained_string.seq fun n => contained_pure _
  · exact contained_varint.seq fun t => contained_pure _
  · exact contained_varint.seq fun l => contained_pure _
  · exact contained_string.seq fun c => contained_string.seq fun f => contained_string.seq
      fun k => contained_pure _
  · exact contained_string.seq fun c => contained_string.seq fun f => contained_string.seq
      fun k => contained_pure _
  · exact contained_string.seq fun t => contained_string.seq fun s => contained_pure _
  · exact contained_string.seq fun c => contained_blob.seq fun b => contained_pure _
  · exact contained_string.seq fun c => BufferReader.contained_u8.seq fun p =>
      contained_presenceOf c p
  · exact contained_throw (Fault.corrupted _) 0

theorem contained_readPayload : Contained Fault.Corrupted 0 WalEntry.readPayload :=
  BufferReader.contained_number.seq fun _ => BufferReader.contained_number.seq fun _ =>
    BufferReader.contained_number.seq fun _ => BufferReader.contained_u8.seq fun code =>
      (contained_readBody code).seq fun _ => contained_pure _

/-! ## Reading what was written -/

theorem parses_u64 {n : ℕ} (h : n < 2 ^ 64) : Parses u64 (leBytes 8 n) n :=
  BufferReader.parses_number (n := 8) h

theorem parses_varint {n : ℕ} (h : n < 2 ^ 64) : Parses varint (putU64 n) n := by
  refine (BufferReader.parses_varint (UInt64.ofNat n)).then ?_
  rw [UInt64.toNat_ofNat', Nat.mod_eq_of_lt h]
  exact parses_pure n

theorem parses_string {s : String} (h : s.utf8ByteSize < 2 ^ 64) : Parses string (putStr s) s := by
  refine (parses_varint h).bind ((BufferReader.parses_take (utf8_length s)).then ?_)
  unfold text
  rw [decodeUtf8_utf8]
  exact parses_pure s

theorem parses_blob {b : Bytes} (h : b.length < 2 ^ 64) : Parses blob (putBytes b) b :=
  (parses_varint h).bind (BufferReader.parses_take rfl)

theorem parses_recordId (id : RecordId) : Parses recordId (putU64 id) id := by
  refine (parses_varint id.isLt).then ?_
  have hid : Fin.ofNat (2 ^ 64) id.val = id := Fin.ext (Nat.mod_eq_of_lt id.isLt)
  rw [hid]
  exact parses_pure id

end PayloadReader.Checked

/-- The numbers of an operation are `u64`s, and so are the lengths of its names and bytes. -/
def WalOp.InWidth : WalOp → Prop
  | .insert c _ b | .update c _ b => c.utf8ByteSize < 2 ^ 64 ∧ b.length < 2 ^ 64
  | .delete c _ => c.utf8ByteSize < 2 ^ 64
  | .createCollection n s | .alterSchemaInPlace n s => n.utf8ByteSize < 2 ^ 64 ∧ s.length < 2 ^ 64
  | .dropCollection n => n.utf8ByteSize < 2 ^ 64
  | .setClusterField c f => c.utf8ByteSize < 2 ^ 64 ∧ ∀ name ∈ f, name.utf8ByteSize < 2 ^ 64
  | .commit n | .checkpoint n => n < 2 ^ 64
  | .createIndex c f k | .dropIndex c f k =>
    c.utf8ByteSize < 2 ^ 64 ∧ f.utf8ByteSize < 2 ^ 64 ∧ k.utf8ByteSize < 2 ^ 64
  | .adoptMigration t s => t.utf8ByteSize < 2 ^ 64 ∧ s.utf8ByteSize < 2 ^ 64

/-- What the types of the code hold: numbers and lengths of 64 bits. -/
structure WalEntry.InWidth (e : WalEntry) : Prop where
  lsn : e.lsn < 2 ^ 64
  nanos : e.nanos < 2 ^ 64
  txn : e.txn < 2 ^ 64
  op : e.op.InWidth

open Reading

/-- The opcode, and what stands behind it. -/
theorem WalOp.parses_encode {op : WalOp} (h : op.InWidth) :
    Parses (PayloadReader.Checked.u8 >>= WalOp.readBody) op.encode op := by
  have hop (code : UInt8) (body : Bytes) (hbody : Parses (WalOp.readBody code) body op) :
      Parses (PayloadReader.Checked.u8 >>= WalOp.readBody) (code :: body) op :=
    (BufferReader.parses_u8 code).bind hbody
  cases op with
  | insert c id b =>
    refine hop 1 _ ?_
    rw [List.append_assoc]
    exact (parses_string h.1).bind ((parses_recordId id).bind ((parses_blob h.2).then
      (parses_pure _)))
  | update c id b =>
    refine hop 2 _ ?_
    rw [List.append_assoc]
    exact (parses_string h.1).bind ((parses_recordId id).bind ((parses_blob h.2).then
      (parses_pure _)))
  | delete c id =>
    exact hop 3 _ ((parses_string h).bind ((parses_recordId id).then (parses_pure _)))
  | createCollection n s =>
    exact hop 4 _ ((parses_string h.1).bind ((parses_blob h.2).then (parses_pure _)))
  | dropCollection n => exact hop 5 _ ((parses_string h).then (parses_pure _))
  | commit t => exact hop 6 _ ((parses_varint h).then (parses_pure _))
  | checkpoint l => exact hop 7 _ ((parses_varint h).then (parses_pure _))
  | createIndex c f k =>
    refine hop 8 _ ?_
    rw [List.append_assoc]
    exact (parses_string h.1).bind ((parses_string h.2.1).bind ((parses_string h.2.2).then
      (parses_pure _)))
  | dropIndex c f k =>
    refine hop 9 _ ?_
    rw [List.append_assoc]
    exact (parses_string h.1).bind ((parses_string h.2.1).bind ((parses_string h.2.2).then
      (parses_pure _)))
  | adoptMigration t s =>
    exact hop 10 _ ((parses_string h.1).bind ((parses_string h.2).then (parses_pure _)))
  | alterSchemaInPlace c s =>
    exact hop 11 _ ((parses_string h.1).bind ((parses_blob h.2).then (parses_pure _)))
  | setClusterField c f =>
    cases f with
    | none =>
      exact hop 12 _ ((parses_string h.1).bind ((BufferReader.parses_u8 0).then (parses_pure _)))
    | some f =>
      have hname : Parses (presenceOf c 1) (putStr f) (.setClusterField c (some f)) :=
        (parses_string (h.2 f rfl)).then (parses_pure _)
      exact hop 12 _ ((parses_string h.1).bind ((BufferReader.parses_u8 1).bind hname))

/-- Behind the three numbers of an entry. -/
def WalEntry.readOp (lsn nanos txn : ℕ) (op : WalOp) : BufferReader WalEntry :=
  pure ⟨lsn, nanos, txn, op⟩

theorem WalEntry.parses_payload {e : WalEntry} (h : e.InWidth) :
    Parses WalEntry.readPayload e.encodePayload e := by
  have hop := (WalOp.parses_encode h.op).then (f := readOp e.lsn e.nanos e.txn) (parses_pure e)
  rw [bind_assoc] at hop
  rw [encodePayload, List.append_assoc, List.append_assoc]
  exact (parses_u64 h.lsn).bind ((parses_u64 h.nanos).bind ((parses_u64 h.txn).bind hop))

theorem WalEntry.payload_codec_sound :
    (∀ e : WalEntry, e.InWidth →
      WalEntry.readPayload.runOn e.encodePayload = .ok e ∧
        ∀ part rest, e.encodePayload = part ++ rest → rest ≠ [] →
          ∀ e', WalEntry.readPayload.runOn part ≠ .ok e') ∧
      ∀ buf, (∃ e, WalEntry.readPayload.runOn buf = .ok e) ∨
        ∃ e, WalEntry.readPayload.runOn buf = .error (.error e) := by
  refine ⟨fun e he => ⟨(parses_payload he).runOn, fun part rest hsplit hrest => ?_⟩, fun buf => ?_⟩
  · exact (parses_payload he).noPrefix contained_readPayload hsplit hrest
  · rcases contained_readPayload.runOn buf with h | ⟨f, hf, message, rfl⟩
    · exact .inl h
    · exact .inr ⟨_, hf⟩

/-- The clustering directive, the entry whose tail is optional. -/
theorem WalEntry.cluster_field_read_back :
    WalEntry.readPayload.runOn
      (WalEntry.encodePayload ⟨7, 11, 0, .setClusterField "météo" (some "jour")⟩) =
        .ok ⟨7, 11, 0, .setClusterField "météo" (some "jour")⟩ ∧
      ∀ e, WalEntry.readPayload.runOn [7, 0, 0] ≠ .ok e := by
  have hwidth : WalEntry.InWidth ⟨7, 11, 0, .setClusterField "météo" (some "jour")⟩ := by
    refine ⟨by decide, by decide, by decide, by decide, ?_⟩
    rintro name ⟨⟩
    decide
  obtain ⟨hback, hcut⟩ := WalEntry.payload_codec_sound.1 _ hwidth
  exact ⟨hback, hcut [7, 0, 0] (WalEntry.encodePayload _ |>.drop 3) rfl (by decide +kernel)⟩

end Adabt.Storage
