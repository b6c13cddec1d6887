import Adabt.Core.Record
import Adabt.Core.Error
import Adabt.Storage.Varint
import Adabt.Library.Fallible

/-! # The bounds-checked reader

Every decode path takes its bytes through a cursor, so a truncated or corrupt
buffer is an error. A cursor is the bytes still to be read and how many were
read before them. -/

set_option autoImplicit false

namespace Adabt.Storage
open Adabt.Core Adabt.Library

def utf8 (s : String) : Bytes := s.toByteArray.data.toList

def decodeUtf8 (b : Bytes) : Option String := String.fromUTF8? ⟨b.toArray⟩

theorem decodeUtf8_utf8 (s : String) : decodeUtf8 (utf8 s) = some s := by
  have h : (⟨(utf8 s).toArray⟩ : ByteArray) = s.toByteArray := by simp [utf8]
  rw [decodeUtf8, h, String.fromUTF8?, dif_pos s.isValidUTF8]
  rfl

@[simp] theorem utf8_length (s : String) : (utf8 s).length = s.utf8ByteSize := by simp [utf8]

structure Cursor where
  pos : ℕ
  rest : Bytes
  deriving DecidableEq, Repr

namespace Cursor

def new (buf : Bytes) : Cursor := ⟨0, buf⟩

def remaining (c : Cursor) : ℕ := c.rest.length

def take (n : ℕ) (c : Cursor) : Except Error (Bytes × Cursor) :=
  if n ≤ c.rest.length then .ok (c.rest.take n, ⟨c.pos + n, c.rest.drop n⟩)
  -- `checked_add` on a 64-bit `usize`; past it the range is out of bounds as well.
  else if 2 ^ 64 ≤ c.pos + n then .error (.corruption "length overflow while decoding record")
  else .error (.corruption ("record truncated: wanted " ++ toString n ++ " bytes at " ++
    toString c.pos ++ ", " ++ toString c.rest.length ++ " available"))

def u8 (c : Cursor) : Except Error (UInt8 × Cursor) := do
  let (b, c) ← c.take 1
  return (b.headD 0, c)

def u64 (c : Cursor) : Except Error (UInt64 × Cursor) := do
  let (b, c) ← c.take 8
  return (UInt64.ofNat (ofLeBytes b), c)

def varint (c : Cursor) : Except Error (UInt64 × Cursor) := do
  let (v, used) ← Varint.readU64 c.rest
  return (v, ⟨c.pos + used, c.rest.drop used⟩)

/-- `string` and `str_ref`, which read the same bytes with the same check. -/
def string (n : ℕ) (c : Cursor) : Except Error (String × Cursor) := do
  let (b, c) ← c.take n
  match decodeUtf8 b with
  | some s => return (s, c)
  | none => .error (.corruption "invalid utf-8 in record")

theorem take_append (p : ℕ) (xs ys : Bytes) {n : ℕ} (h : xs.length = n) :
    take n ⟨p, xs ++ ys⟩ = .ok (xs, ⟨p + n, ys⟩) := by
  subst h
  simp [take]

@[simp] theorem u8_cons (p : ℕ) (b : UInt8) (ys : Bytes) :
    u8 ⟨p, b :: ys⟩ = .ok (b, ⟨p + 1, ys⟩) := by
  simp [u8, take, pure, Except.pure]

theorem u64_append (p : ℕ) (v : UInt64) (ys : Bytes) :
    u64 ⟨p, leBytes 8 v.toNat ++ ys⟩ = .ok (v, ⟨p + 8, ys⟩) := by
  have hv : v.toNat < 256 ^ 8 := v.toNat_lt
  rw [u64, take_append _ _ _ (leBytes_length 8 _), ok_bind]
  simp only [ofLeBytes_leBytes hv, UInt64.ofNat_toNat]
  rfl

theorem varint_append (p : ℕ) (v : UInt64) (ys : Bytes) :
    varint ⟨p, Varint.writeU64 v ++ ys⟩ = .ok (v, ⟨p + (Varint.writeU64 v).length, ys⟩) := by
  simp [varint, Varint.readU64_writeU64, pure, Except.pure]

theorem string_append (p : ℕ) (s : String) (ys : Bytes) :
    string s.utf8ByteSize ⟨p, utf8 s ++ ys⟩ = .ok (s, ⟨p + s.utf8ByteSize, ys⟩) := by
  rw [string, take_append _ _ _ (utf8_length s), ok_bind]
  simp only [decodeUtf8_utf8]
  rfl

end Cursor

end Adabt.Storage
