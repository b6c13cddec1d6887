import Adabt.Storage.Wal

/-! # Log payloads

The payload of a log entry is written once and read back by a reader of its own.
What is written is read as it was, whatever follows it. -/

set_option autoImplicit false

namespace Adabt.Storage
open Adabt.Core Adabt.Library

/-! ## The payload reader -/

namespace PayloadReader

def truncated : Error := .corruption "truncated wal entry"

def take (n : ℕ) (buf : Bytes) : Except Error (Bytes × Bytes) :=
  if n ≤ buf.length then .ok (buf.take n, buf.drop n) else .error truncated

def u8 (buf : Bytes) : Except Error (UInt8 × Bytes) := do
  let (b, rest) ← take 1 buf
  return (b.headD 0, rest)

def u64 (buf : Bytes) : Except Error (ℕ × Bytes) := do
  let (b, rest) ← take 8 buf
  return (ofLeBytes b, rest)

def varint (buf : Bytes) : Except Error (ℕ × Bytes) := do
  let (v, used) ← Varint.readU64 buf
  return (v.toNat, buf.drop used)

def string (buf : Bytes) : Except Error (String × Bytes) := do
  let (n, rest) ← varint buf
  let (b, rest) ← take n rest
  match decodeUtf8 b with
  | some s => return (s, rest)
  | none => .error (.corruption "invalid utf-8 in wal")

def blob (buf : Bytes) : Except Error (Bytes × Bytes) := do
  let (n, rest) ← varint buf
  take n rest

def recordId (buf : Bytes) : Except Error (RecordId × Bytes) := do
  let (n, rest) ← varint buf
  return (Fin.ofNat (2 ^ 64) n, rest)

theorem take_append {n : ℕ} {xs : Bytes} (h : xs.length = n) (ys : Bytes) :
    take n (xs ++ ys) = .ok (xs, ys) := by
  subst h
  simp [take]

@[simp] theorem u8_cons (b : UInt8) (ys : Bytes) : u8 (b :: ys) = .ok (b, ys) := by
  simp [u8, take, pure, Except.pure]

theorem u64_append {n : ℕ} (h : n < 2 ^ 64) (ys : Bytes) :
    u64 (leBytes 8 n ++ ys) = .ok (n, ys) := by
  rw [u64, take_append (leBytes_length 8 n), ok_bind]
  simp only [ofLeBytes_leBytes (n := 8) h]
  rfl

theorem varint_append {n : ℕ} (h : n < 2 ^ 64) (ys : Bytes) :
    varint (putU64 n ++ ys) = .ok (n, ys) := by
  have hn : (UInt64.ofNat n).toNat = n := by rw [UInt64.toNat_ofNat', Nat.mod_eq_of_lt h]
  simp [varint, putU64, Varint.readU64_writeU64, pure, Except.pure, hn]

theorem string_append {s : String} (h : s.utf8ByteSize < 2 ^ 64) (ys : Bytes) :
    string (putStr s ++ ys) = .ok (s, ys) := by
  have hv := varint_append h (utf8 s ++ ys)
  rw [putU64] at hv
  rw [string, putStr, List.append_assoc, hv, ok_bind]
  dsimp only
  rw [take_append (utf8_length s), ok_bind]
  simp only [decodeUtf8_utf8]
  rfl

theorem blob_append {b : Bytes} (h : b.length < 2 ^ 64) (ys : Bytes) :
    blob (putBytes b ++ ys) = .ok (b, ys) := by
  have hv := varint_append h (b ++ ys)
  rw [putU64] at hv
  rw [blob, putBytes, List.append_assoc, hv, ok_bind]
  exact take_append rfl ys

theorem recordId_append (id : RecordId) (ys : Bytes) :
    recordId (putU64 id ++ ys) = .ok (id, ys) := by
  have hid : Fin.ofNat (2 ^ 64) id.val = id := Fin.ext (Nat.mod_eq_of_lt id.isLt)
  rw [recordId, varint_append id.isLt, ok_bind]
  dsimp only
  rw [hid]
  rfl

end PayloadReader

/-! ## Decoding -/

open PayloadReader in
def decodeClusterField (collection : String) (buf : Bytes) : Except Error WalOp := do
  let (presence, buf) ← u8 buf
  match presence with
  | 0 => return .setClusterField collection none
  | 1 =>
    let (f, _) ← string buf
    return .setClusterField collection (some f)
  | other => .error (.corruption ("invalid cluster-field presence byte " ++ toString other))

open PayloadReader in
def WalOp.decode (buf : Bytes) : Except Error WalOp := do
  let (code, buf) ← u8 buf
  match code with
  | 1 =>
    let (collection, buf) ← string buf
    let (id, buf) ← recordId buf
    let (bytes, _) ← blob buf
    return .insert collection id bytes
  | 2 =>
    let (collection, buf) ← string buf
    let (id, buf) ← recordId buf
    let (bytes, _) ← blob buf
    return .update collection id bytes
  | 3 =>
    let (collection, buf) ← string buf
    let (id, _) ← recordId buf
    return .delete collection id
  | 4 =>
    let (name, buf) ← string buf
    let (schema, _) ← blob buf
    return .createCollection name schema
  | 5 =>
    let (name, _) ← string buf
    return .dropCollection name
  | 6 =>
    let (txn, _) ← varint buf
    return .commit txn
  | 7 =>
    let (flushedLsn, _) ← varint buf
    return .checkpoint flushedLsn
  | 8 =>
    let (collection, buf) ← string buf
    let (field, buf) ← string buf
    let (kind, _) ← string buf
    return .createIndex collection field kind
  | 9 =>
    let (collection, buf) ← string buf
    let (field, buf) ← string buf
    let (kind, _) ← string buf
    return .dropIndex collection field kind
  | 10 =>
    let (target, buf) ← string buf
    let (source, _) ← string buf
    return .adoptMigration target source
  | 11 =>
    let (collection, buf) ← string buf
    let (schema, _) ← blob buf
    return .alterSchemaInPlace collection schema
  | 12 =>
    let (collection, buf) ← string buf
    decodeClusterField collection buf
  | other => .error (.corruption ("unknown wal opcode " ++ toString other))

open PayloadReader in
def WalEntry.decodePayload (buf : Bytes) : Except Error WalEntry := do
  let (lsn, buf) ← u64 buf
  let (nanos, buf) ← u64 buf
  let (txn, buf) ← u64 buf
  let op ← WalOp.decode buf
  return ⟨lsn, nanos, txn, op⟩

/-! ## Round trip -/

/-- The numbers of an operation are `u64`s. -/
def WalOp.InRange : WalOp → Prop
  | .commit txn => txn < 2 ^ 64
  | .checkpoint flushedLsn => flushedLsn < 2 ^ 64
  | _ => True

/-- An entry the log takes: its numbers are `u64`s and its payload is within the limit. -/
structure WalEntry.Loggable (e : WalEntry) : Prop where
  lsn : e.lsn < 2 ^ 64
  nanos : e.nanos < 2 ^ 64
  txn : e.txn < 2 ^ 64
  op : e.op.InRange
  size : e.encodePayload.length ≤ maxEntry

theorem putStr_size (s : String) : s.utf8ByteSize ≤ (putStr s).length := by
  simp [putStr]

theorem putBytes_size (b : Bytes) : b.length ≤ (putBytes b).length := by
  simp [putBytes]

open PayloadReader in
theorem WalOp.decode_encode {op : WalOp} (h : op.InRange) (hl : op.encode.length < 2 ^ 64) :
    WalOp.decode op.encode = .ok op := by
  have str : ∀ {s : String}, (putStr s).length < 2 ^ 64 → s.utf8ByteSize < 2 ^ 64 :=
    fun {s} h => (putStr_size s).trans_lt h
  have blo : ∀ {b : Bytes}, (putBytes b).length < 2 ^ 64 → b.length < 2 ^ 64 :=
    fun {b} h => (putBytes_size b).trans_lt h
  unfold WalOp.decode
  cases op with
  | insert c id b | update c id b =>
    simp only [encode, List.length_cons, List.length_append] at hl
    have hb := blob_append (blo (b := b) (by omega)) []
    rw [List.append_nil] at hb
    simp only [encode, List.append_assoc, u8_cons, ok_bind, string_append (str (s := c) (by omega)),
      recordId_append, hb]
    rfl
  | delete c id =>
    simp only [encode, List.length_cons, List.length_append] at hl
    have hi := recordId_append id []
    rw [List.append_nil] at hi
    simp only [encode, u8_cons, ok_bind, string_append (str (s := c) (by omega)), hi]
    rfl
  | createCollection n b | alterSchemaInPlace n b =>
    simp only [encode, List.length_cons, List.length_append] at hl
    have hb := blob_append (blo (b := b) (by omega)) []
    rw [List.append_nil] at hb
    simp only [encode, u8_cons, ok_bind, string_append (str (s := n) (by omega)), hb]
    rfl
  | dropCollection n =>
    simp only [encode, List.length_cons] at hl
    have hs := string_append (str (s := n) (by omega)) []
    rw [List.append_nil] at hs
    simp only [encode, u8_cons, ok_bind, hs]
    rfl
  | commit n | checkpoint n =>
    have hv := varint_append (n := n) h []
    rw [List.append_nil] at hv
    simp only [encode, u8_cons, ok_bind, hv]
    rfl
  | createIndex c f k | dropIndex c f k =>
    simp only [encode, List.length_cons, List.length_append] at hl
    have hs := string_append (str (s := k) (by omega)) []
    rw [List.append_nil] at hs
    simp only [encode, List.append_assoc, u8_cons, ok_bind, string_append (str (s := c) (by omega)),
      string_append (str (s := f) (by omega)), hs]
    rfl
  | adoptMigration t s =>
    simp only [encode, List.length_cons, List.length_append] at hl
    have hs := string_append (str (s := s) (by omega)) []
    rw [List.append_nil] at hs
    simp only [encode, u8_cons, ok_bind, string_append (str (s := t) (by omega)), hs]
    rfl
  | setClusterField c f =>
    cases f with
    | none =>
      simp only [encode, List.length_cons, List.length_append] at hl
      simp only [encode, u8_cons, ok_bind, string_append (str (s := c) (by omega)),
        decodeClusterField]
      rfl
    | some f =>
      simp only [encode, List.length_cons, List.length_append] at hl
      have hs := string_append (str (s := f) (by omega)) []
      rw [List.append_nil] at hs
      simp only [encode, u8_cons, ok_bind, string_append (str (s := c) (by omega)),
        decodeClusterField, hs]
      rfl

open PayloadReader in
theorem WalEntry.decode_encode {e : WalEntry} (h : e.Loggable) :
    WalEntry.decodePayload e.encodePayload = .ok e := by
  have hsize := h.size
  simp only [encodePayload, List.length_append, leBytes_length, maxEntry] at hsize
  rw [decodePayload, encodePayload, List.append_assoc, List.append_assoc, u64_append h.lsn, ok_bind]
  dsimp only
  rw [u64_append h.nanos, ok_bind]
  dsimp only
  rw [u64_append h.txn, ok_bind]
  dsimp only
  rw [WalOp.decode_encode h.op (by omega), ok_bind]
  rfl

end Adabt.Storage
