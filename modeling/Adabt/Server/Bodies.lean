import Adabt.Server.Wire
import Adabt.Storage.Reads

/-! # Bodies, written and read

A query body is read as it was written while its strings are shorter than the
32 bits of their length can say, and no more and no less than the body will do.
Rows are read as they were written unless one of them is nested too deep. -/

set_option autoImplicit false

namespace Adabt.Server
open Adabt.Core Adabt.Ir Adabt.Library Adabt.Storage

namespace Reader

/-! ## What was written -/

theorem take_append {n : ℕ} (what : String) {xs : Bytes} (h : xs.length = n) (ys : Bytes) :
    take n what (xs ++ ys) = .ok (xs, ys) := by
  subst h
  simp [take]

theorem u8_cons (what : String) (b : UInt8) (ys : Bytes) : u8 what (b :: ys) = .ok (b, ys) := by
  simp [u8, take, pure, Except.pure]

theorem u32_append (what : String) {n : ℕ} (h : n < 2 ^ 32) (ys : Bytes) :
    u32 what (Writer.u32 n ++ ys) = .ok (n, ys) := by
  rw [u32, Writer.u32, take_append what (leBytes_length 4 n), ok_bind]
  simp only [ofLeBytes_leBytes (n := 4) h]
  rfl

theorem bytes_append (what : String) {b : Bytes} (h : b.length < 2 ^ 32) (ys : Bytes) :
    bytes what (Writer.bytes b ++ ys) = .ok (b, ys) := by
  rw [bytes, Writer.bytes, List.append_assoc, u32_append what h, ok_bind]
  exact take_append what rfl ys

theorem str_append (what : String) {s : String} (h : s.utf8ByteSize < 2 ^ 32) (ys : Bytes) :
    str what (Writer.str s ++ ys) = .ok (s, ys) := by
  rw [str, Writer.str, bytes_append what (by rwa [utf8_length]), ok_bind]
  simp only [decodeUtf8_utf8]
  rfl

theorem value_append {v : OrdValue} (hlen : (encodeValue v).length < 2 ^ 64)
    (hd : v.1.nesting ≤ maxDepth) (ys : Bytes) : value (Writer.value v ++ ys) = .ok (v, ys) := by
  rw [value, Writer.value, decodeValue_append hlen, if_pos hd, ok_bind]
  dsimp only
  rw [List.drop_left]
  rfl

theorem recordId_append (what : String) (id : RecordId) (ys : Bytes) :
    recordId what (Writer.u64 id ++ ys) = .ok (id, ys) := by
  have hid : Fin.ofNat (2 ^ 64) id.val = id := Fin.ext (Nat.mod_eq_of_lt id.isLt)
  rw [recordId, u64, Writer.u64, take_append what (leBytes_length 8 _), ok_bind]
  dsimp only
  rw [ofLeBytes_leBytes (n := 8) id.isLt]
  simp only [pure, Except.pure, ok_bind, hid]

theorem done_append (xs : Bytes) : done xs = .ok () ↔ xs = [] := by
  cases xs <;> simp [done]

/-! ## What follows -/

theorem take_more {n : ℕ} {what : String} {buf b rest : Bytes}
    (h : take n what buf = .ok (b, rest)) (ys : Bytes) :
    take n what (buf ++ ys) = .ok (b, rest ++ ys) ∧ b.length = n := by
  rw [take] at h
  split_ifs at h with hn
  cases h
  rw [take, if_pos (by rw [List.length_append]; omega), List.take_append_of_le_length hn,
    List.drop_append_of_le_length hn, List.length_take, Nat.min_eq_left hn]
  exact ⟨rfl, rfl⟩

theorem u8_more {what : String} {buf rest : Bytes} {b : UInt8} (h : u8 what buf = .ok (b, rest))
    (ys : Bytes) : u8 what (buf ++ ys) = .ok (b, rest ++ ys) := by
  obtain ⟨⟨bs, r⟩, ht, h⟩ := bind_eq_ok.mp h
  cases h
  rw [u8, (take_more ht ys).1]
  rfl

theorem u32_more {what : String} {buf rest : Bytes} {n : ℕ} (h : u32 what buf = .ok (n, rest))
    (ys : Bytes) : u32 what (buf ++ ys) = .ok (n, rest ++ ys) ∧ n < 2 ^ 32 := by
  obtain ⟨⟨bs, r⟩, ht, h⟩ := bind_eq_ok.mp h
  cases h
  obtain ⟨hmore, hlen⟩ := take_more ht ys
  have hlt := ofLeBytes_lt bs
  rw [hlen] at hlt
  rw [u32, hmore]
  exact ⟨rfl, hlt⟩

theorem utf8_of_decodeUtf8 {b : Bytes} {s : String} (h : decodeUtf8 b = some s) : utf8 s = b := by
  rw [decodeUtf8, String.fromUTF8?] at h
  split_ifs at h with hv
  cases h
  simp [utf8, String.fromUTF8]

/-- A string that was read has the length that was read before it. -/
theorem str_more {what : String} {buf rest : Bytes} {s : String}
    (h : str what buf = .ok (s, rest)) (ys : Bytes) :
    str what (buf ++ ys) = .ok (s, rest ++ ys) ∧ s.utf8ByteSize < 2 ^ 32 := by
  obtain ⟨⟨b, r⟩, hb, h⟩ := bind_eq_ok.mp h
  obtain ⟨⟨n, r'⟩, hn, hb⟩ := bind_eq_ok.mp hb
  obtain ⟨hmore, hlt⟩ := u32_more hn ys
  obtain ⟨htake, hlen⟩ := take_more hb ys
  dsimp only at h
  cases hd : decodeUtf8 b with
  | none =>
    rw [hd] at h
    cases h
  | some t =>
    rw [hd] at h
    cases h
    rw [str, bytes, hmore, ok_bind]
    dsimp only
    rw [htake, ok_bind]
    dsimp only
    rw [hd]
    refine ⟨rfl, ?_⟩
    rw [← utf8_length, utf8_of_decodeUtf8 hd, hlen]
    exact hlt

theorem value_more {buf rest : Bytes} {v : OrdValue} (h : value buf = .ok (v, rest)) (ys : Bytes) :
    value (buf ++ ys) = .ok (v, rest ++ ys) := by
  obtain ⟨⟨w, used⟩, hd, h⟩ := bind_eq_ok.mp h
  cases h
  obtain ⟨hused, hmore⟩ := decodeValue_more hd
  rw [value, hmore ys, ok_bind]
  dsimp only
  rw [List.drop_append_of_le_length hused]
  rfl

end Reader

theorem cmpFromCode_cmpCode (op : CmpOp) : cmpFromCode (cmpCode op) = .ok op := by
  cases op <;> rfl

/-! ## Queries -/

namespace QuerySpec

/-- The strings are shorter than the length field can say. -/
structure Addressable (q : QuerySpec) : Prop where
  collection : q.collection.utf8ByteSize < 2 ^ 32
  field : ∀ field op v, q.filter = some (field, op, v) → field.utf8ByteSize < 2 ^ 32

/-- The value of the filter nests at most this deep. -/
def NestedAtMost (n : ℕ) (q : QuerySpec) : Prop :=
  ∀ field op v, q.filter = some (field, op, v) → v.1.nesting ≤ n

theorem decodeFilter_append {filter : Option (String × CmpOp × OrdValue)}
    (hfield : ∀ field op v, filter = some (field, op, v) → field.utf8ByteSize < 2 ^ 32)
    (hnest : ∀ field op v, filter = some (field, op, v) → v.1.nesting ≤ maxDepth)
    (hlen : (encodeFilter filter).length < 2 ^ 64) (ys : Bytes) :
    decodeFilter (encodeFilter filter ++ ys) = .ok (filter, ys) := by
  cases filter with
  | none =>
    rw [encodeFilter, Writer.u8, List.singleton_append, decodeFilter, Reader.u8_cons]
    rfl
  | some f =>
    obtain ⟨field, op, v⟩ := f
    have hv : (encodeValue v).length < 2 ^ 64 := by
      simp only [encodeFilter, Writer.value, List.length_append] at hlen
      omega
    rw [encodeFilter, decodeFilter]
    simp only [Writer.u8, List.nil_append, List.cons_append, List.append_assoc,
      Reader.u8_cons, ok_bind]
    refine bind_eq_ok.mpr ⟨_, Reader.str_append _ (hfield _ _ _ rfl) _, ?_⟩
    refine bind_eq_ok.mpr ⟨_, Reader.u8_cons _ _ _, ?_⟩
    refine bind_eq_ok.mpr ⟨_, cmpFromCode_cmpCode op, ?_⟩
    refine bind_eq_ok.mpr ⟨_, Reader.value_append hv (hnest _ _ _ rfl) ys, ?_⟩
    rfl

/-- Past the encoding of a query nothing may follow. -/
theorem decode_append {q : QuerySpec} (ha : q.Addressable) (hn : q.NestedAtMost maxDepth)
    (hlen : q.encode.length < 2 ^ 64) (ys : Bytes) :
    decode (q.encode ++ ys) = (Reader.done ys >>= fun _ => .ok q) := by
  have hfilter : (encodeFilter q.filter).length < 2 ^ 64 := by
    rw [encode, List.length_append, List.length_append] at hlen
    omega
  rw [decode, encode, List.append_assoc, List.append_assoc, Reader.str_append _ ha.collection,
    ok_bind]
  dsimp only
  rw [decodeFilter_append ha.field hn hfilter, ok_bind]
  dsimp only
  rw [Reader.u32_append _ q.limit.toNat_lt, ok_bind]
  dsimp only
  rw [UInt32.ofNat_toNat]
  rfl

theorem decodeFilter_more {buf rest : Bytes} {filter : Option (String × CmpOp × OrdValue)}
    (h : decodeFilter buf = .ok (filter, rest)) (ys : Bytes) :
    decodeFilter (buf ++ ys) = .ok (filter, rest ++ ys) ∧
      ∀ field op v, filter = some (field, op, v) → field.utf8ByteSize < 2 ^ 32 := by
  obtain ⟨⟨flag, buf₁⟩, hflag, h⟩ := bind_eq_ok.mp h
  rw [decodeFilter, Reader.u8_more hflag ys, ok_bind]
  dsimp only at h ⊢
  generalize flag.toNat = code at h ⊢
  rcases code with _ | _ | n
  · cases h
    exact ⟨rfl, fun _ _ _ hsome => by cases hsome⟩
  · obtain ⟨⟨field, buf₂⟩, hfield, h⟩ := bind_eq_ok.mp h
    obtain ⟨⟨code, buf₃⟩, hcode, h⟩ := bind_eq_ok.mp h
    obtain ⟨op, hop, h⟩ := bind_eq_ok.mp h
    obtain ⟨⟨v, buf₄⟩, hv, h⟩ := bind_eq_ok.mp h
    cases h
    obtain ⟨hmore, hlt⟩ := Reader.str_more hfield ys
    dsimp only at hcode hv ⊢
    rw [hmore, ok_bind]
    dsimp only
    rw [Reader.u8_more hcode ys, ok_bind]
    dsimp only
    rw [hop, ok_bind, Reader.value_more hv ys, ok_bind]
    refine ⟨rfl, fun field' op' v' hsome => ?_⟩
    cases hsome
    exact hlt
  · cases h

/-- The parts of a body that is read as a query. -/
theorem decode_parts {body : Bytes} {q : QuerySpec} (h : decode body = .ok q) (ys : Bytes) :
    q.Addressable ∧ decode (body ++ ys) = (Reader.done ys >>= fun _ => .ok q) := by
  obtain ⟨⟨collection, buf₁⟩, hcollection, h⟩ := bind_eq_ok.mp h
  obtain ⟨⟨filter, buf₂⟩, hfilter, h⟩ := bind_eq_ok.mp h
  obtain ⟨⟨limit, buf₃⟩, hlimit, h⟩ := bind_eq_ok.mp h
  obtain ⟨u, hdone, h⟩ := bind_eq_ok.mp h
  cases h
  cases (Reader.done_append buf₃).mp hdone
  obtain ⟨hmore, hlt⟩ := Reader.str_more hcollection ys
  obtain ⟨hmoreFilter, hfield⟩ := decodeFilter_more hfilter ys
  obtain ⟨hmoreLimit, -⟩ := Reader.u32_more hlimit ys
  refine ⟨⟨hlt, hfield⟩, ?_⟩
  rw [decode, hmore, ok_bind]
  dsimp only
  rw [hmoreFilter, ok_bind]
  dsimp only
  rw [hmoreLimit, ok_bind]
  rfl

/-- A query is carried as it is, and its body is the beginning of no other and has no other
as its beginning. -/
structure Carried (q : QuerySpec) : Prop where
  read : decode q.encode = .ok q
  noPrefix : ∀ part rest, q.encode = part ++ rest → rest ≠ [] → ∀ q', decode part ≠ .ok q'
  noExtension : ∀ ys, ys ≠ [] → ∀ q', decode (q.encode ++ ys) ≠ .ok q'

theorem done_error {ys : Bytes} (hys : ys ≠ []) (q q' : QuerySpec) :
    (Reader.done ys >>= fun _ => .ok q) ≠ .ok q' := by
  intro h
  obtain ⟨u, hu, -⟩ := bind_eq_ok.mp h
  exact hys ((Reader.done_append ys).mp hu)

theorem carried {q : QuerySpec} (hn : q.NestedAtMost maxDepth) (hlen : q.encode.length < 2 ^ 64) :
    q.Carried ↔ q.Addressable := by
  constructor
  · intro h
    exact (decode_parts h.read []).1
  · intro ha
    have hread : decode q.encode = .ok q := by
      have h := decode_append ha hn hlen []
      rwa [List.append_nil] at h
    refine ⟨hread, ?_, ?_⟩
    · intro part rest hsplit hrest q' hq'
      have h := (decode_parts hq' rest).2
      rw [← hsplit, hread] at h
      exact done_error hrest q' q h.symm
    · intro ys hys q' hq'
      rw [decode_append ha hn hlen] at hq'
      exact done_error hys q q' hq'

end QuerySpec

/-! ## Rows -/

theorem writable_dynamic (rec : Record) : Writable .dynamic rec where
  slots := fun _ hf => by cases hf
  known := fun h => by cases h

/-- The bytes a record takes in a body. -/
def recordLen (rec : Record) : ℕ := rowSize .dynamic rec

def rowsLen (rows : List (RecordId × Record)) : ℕ := (rows.map fun r => 12 + recordLen r.2).sum

theorem encodeRecord_ok (rec : Record) :
    ∃ b, encodeRecord rec = .ok b ∧ b.length = recordLen rec := by
  have hmode : (RecordCodec.new Schema.dynamic).schema.mode = .dynamic := rfl
  refine ⟨RecordHeader.new.write ++ RecordCodec.writeBag (rawEntries rec), ?_, ?_⟩
  · rw [encodeRecord, recordCodec, RecordCodec.encode, RecordCodec.encodeWithHeader, if_pos hmode,
      List.nil_append]
  · rw [List.length_append, writeHeader_length, rawEntries, writeBag_length]
    rfl

/-- A record is written with its length before it, and read unless it is nested too deep. -/
theorem record_write (rec : Record) :
    ∃ b, Writer.record rec = .ok b ∧ b.length = 4 + recordLen rec ∧ (recordLen rec < 2 ^ 32 →
      ∀ what ys, Reader.record what (b ++ ys) =
        if rec.NestedAtMost maxDepth then .ok (rec, ys) else .error tooDeep) := by
  obtain ⟨b, hb, hlen⟩ := encodeRecord_ok rec
  refine ⟨Writer.bytes b, ?_, ?_, fun hsmall what ys => ?_⟩
  · rw [Writer.record, hb]
    rfl
  · rw [Writer.bytes, Writer.u32, List.length_append, leBytes_length, hlen]
  · have hfits : Fits .dynamic rec := by
      rw [recordLen] at hsmall
      change rowSize .dynamic rec < 2 ^ 64
      omega
    obtain ⟨b', hb', hread⟩ := encode_decode (writable_dynamic rec) hfits
    obtain rfl : b = b' := Except.ok.inj (hb.symm.trans hb')
    rw [Reader.record, Reader.bytes_append what (by omega), ok_bind]
    change (decodeRecord b >>= fun rec => .ok (rec, ys)) = _
    rw [decodeRecord, recordCodec, hread]
    split <;> rfl

/-- Rows are read unless one of them is nested too deep. -/
theorem rowList_write (rows : List (RecordId × Record)) :
    ∃ b, encodeRowList rows = .ok b ∧ b.length = rowsLen rows ∧ (rowsLen rows < 2 ^ 32 →
      ∀ ys, decodeRowList rows.length (b ++ ys) =
        if ∀ r ∈ rows, r.2.NestedAtMost maxDepth then .ok (rows, ys) else .error tooDeep) := by
  induction rows with
  | nil => exact ⟨[], rfl, rfl, fun _ ys => (if_pos fun _ hr => by cases hr).symm⟩
  | cons row rows ih =>
    obtain ⟨id, rec⟩ := row
    obtain ⟨b, hb, hlen, hread⟩ := record_write rec
    obtain ⟨rest, hrest, hrestLen, hreadRest⟩ := ih
    have hsum : rowsLen ((id, rec) :: rows) = 12 + recordLen rec + rowsLen rows := by
      rw [rowsLen, List.map_cons, List.sum_cons, ← rowsLen]
    refine ⟨Writer.u64 id ++ b ++ rest, ?_, ?_, fun hsmall ys => ?_⟩
    · rw [encodeRowList, hb, ok_bind, hrest, ok_bind]
      rfl
    · rw [List.length_append, List.length_append, hlen, hrestLen, hsum, Writer.u64,
        leBytes_length]
      omega
    · rw [hsum] at hsmall
      rw [List.length_cons, decodeRowList, List.append_assoc, List.append_assoc,
        Reader.recordId_append, ok_bind]
      dsimp only
      rw [hread (by omega)]
      simp only [List.forall_mem_cons]
      by_cases hrow : rec.NestedAtMost maxDepth
      · rw [if_pos hrow, ok_bind]
        dsimp only
        rw [hreadRest (by omega)]
        by_cases hrows : ∀ r ∈ rows, r.2.NestedAtMost maxDepth
        · rw [if_pos hrows, if_pos ⟨hrow, hrows⟩]
          rfl
        · rw [if_neg hrows, if_neg fun h => hrows h.2]
          rfl
      · rw [if_neg hrow, if_neg fun h => hrow h.1]
        rfl

theorem length_le_rowsLen (rows : List (RecordId × Record)) : 12 * rows.length ≤ rowsLen rows := by
  induction rows with
  | nil => exact Nat.zero_le _
  | cons row rows ih =>
    rw [rowsLen, List.map_cons, List.sum_cons, ← rowsLen, List.length_cons]
    omega

/-- A body of rows, with their number before them. -/
theorem rows_write (rows : List (RecordId × Record)) :
    ∃ body, encodeRows rows = .ok body ∧ body.length = 4 + rowsLen rows ∧
      (rowsLen rows < 2 ^ 32 →
        (decodeRows body = .ok rows ↔ ∀ r ∈ rows, r.2.NestedAtMost maxDepth)) := by
  obtain ⟨b, hb, hlen, hread⟩ := rowList_write rows
  refine ⟨Writer.u32 rows.length ++ b, ?_, ?_, fun hsmall => ?_⟩
  · rw [encodeRows, hb]
    rfl
  · rw [List.length_append, Writer.u32, leBytes_length, hlen]
  · have hcount := length_le_rowsLen rows
    have h := hread hsmall []
    rw [List.append_nil] at h
    rw [decodeRows, Reader.u32_append _ (by omega), ok_bind]
    dsimp only
    rw [h]
    split
    · rename_i hall
      exact ⟨fun _ => hall, fun _ => rfl⟩
    · rename_i hall
      constructor
      · intro herr
        cases herr
      · exact fun h => absurd h hall

end Adabt.Server
