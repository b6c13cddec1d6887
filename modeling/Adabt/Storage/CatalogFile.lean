import Adabt.Storage.Catalog
import Adabt.Storage.Cursor

/-! # The catalog file

The persisted catalog as bytes: a magic number and a format version, the identity
of the database, counters and flags, every collection and index, and a checksum
over all of it. A file that is damaged, foreign or of another version is absent. -/

set_option autoImplicit false

namespace Adabt.Storage
open Adabt.Core Adabt.Library

def catalogMagic : Bytes := utf8 "aDaBtCat"

def catalogVersion : ℕ := 4

/-- FNV-1a. -/
def catalogChecksum (bytes : Bytes) : UInt64 :=
  bytes.foldl (fun h b => (h ^^^ b.toUInt64) * 0x100000001b3) 0xcbf29ce484222325

def putCatalogStr (s : String) : Bytes := leBytes 4 s.utf8ByteSize ++ utf8 s

def flagByte (b : Bool) : UInt8 := if b then 1 else 0

def writeCluster : Option String → Bytes
  | some f => 1 :: putCatalogStr f
  | none => [0]

def writeMeta (m : CollectionMeta) : Bytes :=
  putCatalogStr m.name ++ leBytes 4 m.id ++ leBytes 8 m.nextRecordId ++
    leBytes 4 m.schema.length ++ m.schema ++ writeCluster m.clusterField

def writeIndexDef (i : IndexDef) : Bytes :=
  putCatalogStr i.collection ++ putCatalogStr i.field ++ putCatalogStr i.kind

def catalogBody (identity : ℕ) (cat : Catalog) : Bytes :=
  catalogMagic ++ leBytes 4 catalogVersion ++ leBytes 16 identity ++
    leBytes 4 cat.nextCollectionId ++ leBytes 8 cat.throughLsn ++ leBytes 8 cat.logStartLsn ++
    flagByte cat.deltaEncoding :: flagByte cat.threadPerCore ::
    (leBytes 4 cat.collections.length ++ cat.collections.flatMap writeMeta ++
      leBytes 4 cat.indexes.length ++ cat.indexes.flatMap writeIndexDef)

/-- The bytes of the file; `identity` is the superblock's 128 bits. -/
def writeCatalog (identity : ℕ) (cat : Catalog) : Bytes :=
  catalogBody identity cat ++ leBytes 8 (catalogChecksum (catalogBody identity cat)).toNat

/-! ## Reading -/

namespace CatalogReader

def take (n : ℕ) (buf : Bytes) : Option (Bytes × Bytes) :=
  if n ≤ buf.length then some (buf.take n, buf.drop n) else none

def u8 (buf : Bytes) : Option (UInt8 × Bytes) := do
  let (b, rest) ← take 1 buf
  return (b.headD 0, rest)

def u32 (buf : Bytes) : Option (ℕ × Bytes) := do
  let (b, rest) ← take 4 buf
  return (ofLeBytes b, rest)

def u64 (buf : Bytes) : Option (ℕ × Bytes) := do
  let (b, rest) ← take 8 buf
  return (ofLeBytes b, rest)

def string (buf : Bytes) : Option (String × Bytes) := do
  let (n, rest) ← u32 buf
  let (b, rest) ← take n rest
  let s ← decodeUtf8 b
  return (s, rest)

def clusterField (buf : Bytes) : Option (Option String × Bytes) := do
  let (b, rest) ← u8 buf
  if b = 0 then return (none, rest)
  else if b = 1 then
    let (f, rest) ← string rest
    return (some f, rest)
  else none

def collection (buf : Bytes) : Option (CollectionMeta × Bytes) := do
  let (name, rest) ← string buf
  let (id, rest) ← u32 rest
  let (nextRecordId, rest) ← u64 rest
  let (len, rest) ← u32 rest
  let (schema, rest) ← take len rest
  let (cluster, rest) ← clusterField rest
  return (⟨name, Fin.ofNat _ id, Fin.ofNat _ nextRecordId, schema, cluster⟩, rest)

def index (buf : Bytes) : Option (IndexDef × Bytes) := do
  let (collection, rest) ← string buf
  let (field, rest) ← string rest
  let (kind, rest) ← string rest
  return (⟨collection, field, kind⟩, rest)

def many {α : Type} (read : Bytes → Option (α × Bytes)) : ℕ → Bytes → Option (List α × Bytes)
  | 0, buf => some ([], buf)
  | n + 1, buf => do
    let (x, rest) ← read buf
    let (xs, rest) ← many read n rest
    return (x :: xs, rest)

/-- The flags are there from the fourth version on. -/
def flags (version : ℕ) (buf : Bytes) : Option ((Bool × Bool) × Bytes) := do
  if 4 ≤ version then
    let (delta, rest) ← u8 buf
    let (perCore, rest) ← u8 rest
    return ((delta ≠ 0, perCore ≠ 0), rest)
  else return ((true, false), buf)

/-- What follows the magic number. -/
def body (identity : ℕ) (buf : Bytes) : Option Catalog := do
  let (version, rest) ← u32 buf
  if version ≠ catalogVersion ∧ version ≠ 3 then none
  else
    let (raw, rest) ← take 16 rest
    if ofLeBytes raw ≠ identity then none
    else
      let (nextCollectionId, rest) ← u32 rest
      let (throughLsn, rest) ← u64 rest
      let (logStartLsn, rest) ← u64 rest
      let ((delta, perCore), rest) ← flags version rest
      let (n, rest) ← u32 rest
      let (collections, rest) ← many collection n rest
      let (n, rest) ← u32 rest
      let (indexes, rest) ← many index n rest
      if rest ≠ [] then none
      else return ⟨collections, indexes, Fin.ofNat _ nextCollectionId, throughLsn, logStartLsn,
        delta, perCore⟩

end CatalogReader

/-- The catalog, if the file holds one that belongs to this database. -/
def readCatalog (identity : ℕ) (bytes : Bytes) : Option Catalog :=
  if bytes.length < catalogMagic.length + 8 then none
  else
    let content := bytes.take (bytes.length - 8)
    if catalogChecksum content ≠ UInt64.ofNat (ofLeBytes (bytes.drop (bytes.length - 8))) then none
    else do
      let (magic, rest) ← CatalogReader.take catalogMagic.length content
      if magic ≠ catalogMagic then none else CatalogReader.body identity rest

/-! ## The round trip -/

/-- Everything in the catalog is within the width it is written with. -/
structure Catalog.Writable (cat : Catalog) : Prop where
  throughLsn : cat.throughLsn < 2 ^ 64
  logStartLsn : cat.logStartLsn < 2 ^ 64
  collections : cat.collections.length < 2 ^ 32
  indexes : cat.indexes.length < 2 ^ 32
  metas : ∀ m ∈ cat.collections, m.name.utf8ByteSize < 2 ^ 32 ∧ m.schema.length < 2 ^ 32 ∧
    ∀ f ∈ m.clusterField, f.utf8ByteSize < 2 ^ 32
  defs : ∀ i ∈ cat.indexes, i.collection.utf8ByteSize < 2 ^ 32 ∧ i.field.utf8ByteSize < 2 ^ 32 ∧
    i.kind.utf8ByteSize < 2 ^ 32

namespace CatalogReader

theorem take_append {n : ℕ} {xs : Bytes} (h : xs.length = n) (ys : Bytes) :
    take n (xs ++ ys) = some (xs, ys) := by
  subst h
  simp [take]

@[simp] theorem u8_cons (b : UInt8) (ys : Bytes) : u8 (b :: ys) = some (b, ys) := by
  simp [u8, take]

theorem u32_append {n : ℕ} (h : n < 2 ^ 32) (ys : Bytes) :
    u32 (leBytes 4 n ++ ys) = some (n, ys) := by
  have hv : n < 256 ^ 4 := h
  simp [u32, take_append (leBytes_length 4 n), ofLeBytes_leBytes hv]

theorem u64_append {n : ℕ} (h : n < 2 ^ 64) (ys : Bytes) :
    u64 (leBytes 8 n ++ ys) = some (n, ys) := by
  have hv : n < 256 ^ 8 := h
  simp [u64, take_append (leBytes_length 8 n), ofLeBytes_leBytes hv]

theorem string_append {s : String} (h : s.utf8ByteSize < 2 ^ 32) (ys : Bytes) :
    string (putCatalogStr s ++ ys) = some (s, ys) := by
  rw [putCatalogStr, List.append_assoc, string, u32_append h]
  simp [take_append (utf8_length s), decodeUtf8_utf8]

theorem clusterField_append {c : Option String} (h : ∀ f ∈ c, f.utf8ByteSize < 2 ^ 32)
    (ys : Bytes) : clusterField (writeCluster c ++ ys) = some (c, ys) := by
  cases c with
  | none => rfl
  | some f => simp [clusterField, writeCluster, string_append (h f rfl)]

theorem collection_append {m : CollectionMeta} (hname : m.name.utf8ByteSize < 2 ^ 32)
    (hschema : m.schema.length < 2 ^ 32) (hcluster : ∀ f ∈ m.clusterField, f.utf8ByteSize < 2 ^ 32)
    (ys : Bytes) : collection (writeMeta m ++ ys) = some (m, ys) := by
  have hcl := clusterField_append hcluster ys
  rw [writeMeta]
  simp only [List.append_assoc]
  rw [collection, string_append hname]
  simp [u32_append m.id.isLt, u64_append m.nextRecordId.isLt, u32_append hschema,
    take_append (rfl : m.schema.length = m.schema.length), hcl]

theorem index_append {i : IndexDef} (hc : i.collection.utf8ByteSize < 2 ^ 32)
    (hf : i.field.utf8ByteSize < 2 ^ 32) (hk : i.kind.utf8ByteSize < 2 ^ 32) (ys : Bytes) :
    index (writeIndexDef i ++ ys) = some (i, ys) := by
  rw [writeIndexDef, List.append_assoc, List.append_assoc, index, string_append hc]
  simp [string_append hf, string_append hk]

theorem many_append {α : Type} {read : Bytes → Option (α × Bytes)} {write : α → Bytes}
    {xs : List α} (h : ∀ x ∈ xs, ∀ ys, read (write x ++ ys) = some (x, ys)) (ys : Bytes) :
    many read xs.length (xs.flatMap write ++ ys) = some (xs, ys) := by
  induction xs with
  | nil => rfl
  | cons x xs ih =>
    rw [List.flatMap_cons, List.append_assoc, List.length_cons, many, h x List.mem_cons_self]
    simp [ih fun y hy => h y (List.mem_cons_of_mem _ hy)]

theorem flags_cons (delta perCore : Bool) (ys : Bytes) :
    flags catalogVersion (flagByte delta :: flagByte perCore :: ys) =
      some ((delta, perCore), ys) := by
  cases delta <;> cases perCore <;> simp [flags, catalogVersion, flagByte]

end CatalogReader

theorem catalogChecksum_toNat (bytes : Bytes) :
    UInt64.ofNat (ofLeBytes (leBytes 8 (catalogChecksum bytes).toNat)) = catalogChecksum bytes := by
  have hv : (catalogChecksum bytes).toNat < 256 ^ 8 := (catalogChecksum bytes).toNat_lt
  rw [ofLeBytes_leBytes hv, UInt64.ofNat_toNat]

theorem body_append {identity owner : ℕ} (hid : identity < 2 ^ 128) {cat : Catalog}
    (h : cat.Writable) : CatalogReader.body owner (leBytes 4 catalogVersion ++ (leBytes 16 identity ++
      (leBytes 4 cat.nextCollectionId ++ (leBytes 8 cat.throughLsn ++ (leBytes 8 cat.logStartLsn ++
        (flagByte cat.deltaEncoding :: flagByte cat.threadPerCore ::
          (leBytes 4 cat.collections.length ++ (cat.collections.flatMap writeMeta ++
            (leBytes 4 cat.indexes.length ++ cat.indexes.flatMap writeIndexDef))))))))) =
      if identity = owner then some cat else none := by
  have hvalue : ofLeBytes (leBytes 16 identity) = identity := ofLeBytes_leBytes (by simpa using hid)
  have hversion : catalogVersion < 2 ^ 32 := by decide
  have hmetas : ∀ ys, CatalogReader.many CatalogReader.collection cat.collections.length
      (cat.collections.flatMap writeMeta ++ ys) = some (cat.collections, ys) :=
    CatalogReader.many_append fun m hm =>
      CatalogReader.collection_append (h.metas m hm).1 (h.metas m hm).2.1 (h.metas m hm).2.2
  have hdefs : ∀ ys, CatalogReader.many CatalogReader.index cat.indexes.length
      (cat.indexes.flatMap writeIndexDef ++ ys) = some (cat.indexes, ys) :=
    CatalogReader.many_append fun i hi =>
      CatalogReader.index_append (h.defs i hi).1 (h.defs i hi).2.1 (h.defs i hi).2.2
  have hlast := hdefs []
  rw [List.append_nil] at hlast
  rw [CatalogReader.body, CatalogReader.u32_append hversion]
  by_cases howner : identity = owner
  swap
  · simp [CatalogReader.take_append (leBytes_length 16 identity), hvalue, howner]
  subst howner
  simp [CatalogReader.take_append (leBytes_length 16 identity), hvalue,
    CatalogReader.u32_append cat.nextCollectionId.isLt, CatalogReader.u64_append h.throughLsn,
    CatalogReader.u64_append h.logStartLsn, CatalogReader.flags_cons,
    CatalogReader.u32_append h.collections, hmetas, CatalogReader.u32_append h.indexes, hlast]

/-- A catalog reads back as it was written, in the database it was written for and no other. -/
theorem readCatalog_writeCatalog {identity owner : ℕ} (hid : identity < 2 ^ 128) {cat : Catalog}
    (h : cat.Writable) : readCatalog owner (writeCatalog identity cat) =
      if identity = owner then some cat else none := by
  have htail : (leBytes 8 (catalogChecksum (catalogBody identity cat)).toNat).length = 8 :=
    leBytes_length 8 _
  have hlen : (writeCatalog identity cat).length - 8 = (catalogBody identity cat).length := by
    rw [writeCatalog, List.length_append, htail, Nat.add_sub_cancel]
  have hmagic : catalogMagic.length ≤ (catalogBody identity cat).length := by
    simp only [catalogBody, List.length_append]
    omega
  have hlong : ¬(writeCatalog identity cat).length < catalogMagic.length + 8 := by
    rw [writeCatalog, List.length_append, htail]
    omega
  have hcontent : (writeCatalog identity cat).take (catalogBody identity cat).length =
      catalogBody identity cat := List.take_left
  have hsum : (writeCatalog identity cat).drop (catalogBody identity cat).length =
      leBytes 8 (catalogChecksum (catalogBody identity cat)).toNat := List.drop_left
  rw [readCatalog, if_neg hlong]
  simp only [hlen, hcontent, hsum, catalogChecksum_toNat, ne_eq, not_true_eq_false, if_false]
  rw [catalogBody]
  simp only [List.append_assoc]
  rw [CatalogReader.take_append rfl]
  simp only [Option.bind_eq_bind, Option.bind_some, not_true_eq_false, if_false]
  exact body_append hid h

theorem readCatalog_users : readCatalog 7 (writeCatalog 7
    ⟨[⟨"users", 1, 3, [9], some "age"⟩], [⟨"users", "age", "ordered"⟩], 2, 5, 1, true, false⟩) =
      some ⟨[⟨"users", 1, 3, [9], some "age"⟩], [⟨"users", "age", "ordered"⟩], 2, 5, 1, true,
        false⟩ := by
  refine (readCatalog_writeCatalog (by decide) ⟨by decide, by decide, by decide, by decide, ?_,
    ?_⟩).trans (if_pos rfl)
  · decide +kernel
  · decide +kernel

end Adabt.Storage
