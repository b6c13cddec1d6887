import Adabt.Storage.ValueReader
import Mathlib.Data.List.TakeWhile

/-! # The coordinator's journal

The writes of a transaction across shards stand in one file while they are applied:
four bytes that say what it is, then one entry for every write, with no framing but
its own. What a crash cut off is read up to its last whole entry. -/

set_option autoImplicit false

namespace Adabt.Engine
open Adabt.Core Adabt.Library Adabt.Storage

/-- One write of a transaction across shards. Without a record it is a delete. -/
structure CrossShardWrite where
  collection : String
  id : RecordId
  record : Option Record

/-- How reading an entry ends without one. -/
inductive EntryError where
  | io (message : String)
  | corruption (message : String)
  deriving DecidableEq, Repr

abbrev EntryReader := Reading EntryError UInt8

namespace EntryReader

/-- `read_exact`. -/
def readExact (n : ℕ) : EntryReader Bytes := fun buf pos =>
  if pos + n ≤ buf.length then .ok (slice buf pos n) (pos + n)
  else .error (.io "failed to fill whole buffer") pos

def rdU8 : EntryReader UInt8 := do
  let b ← readExact 1
  return b.headD 0

def rdU32 : EntryReader ℕ := do
  let b ← readExact 4
  return ofLeBytes b

def rdU64 : EntryReader ℕ := do
  let b ← readExact 8
  return ofLeBytes b

-- What the error says about the bytes is left out.
def text (b : Bytes) : Except EntryError String :=
  match decodeUtf8 b with
  | some s => .ok s
  | none => .error (.corruption "coordinator journal name")

def rdStr : EntryReader String := do
  let n ← rdU32
  let b ← readExact n
  Reading.checked (text b)

def valueError : Error → EntryError
  | .corruption message =>
    .corruption ("coordinator journal value: corruption detected: " ++ message)
  -- The reader of values fails in no other way.
  | _ => .corruption "coordinator journal value"

/-- `decode_value` on the bytes from here on. -/
def rdValue : EntryReader OrdValue := fun buf pos =>
  match decodeValue (buf.drop pos) with
  | .ok (v, used) => .ok v (pos + used)
  | .error e => .error (valueError e) pos

def rdFields : ℕ → Record → EntryReader Record
  | 0, r => return r
  | n + 1, r => do
    let name ← rdStr
    let v ← rdValue
    rdFields n (r.set name v)

def rdRecord (kind : UInt8) : EntryReader (Option Record) :=
  if kind = 0 then return none
  else if kind = 1 then do
    let n ← rdU32
    let r ← rdFields n ∅
    return some r
  else Reading.checked (.error (.corruption ("coordinator journal: unknown write kind " ++
    toString kind.toNat)))

def rdWrite : EntryReader CrossShardWrite := do
  let collection ← rdStr
  let id ← rdU64
  let kind ← rdU8
  let record ← rdRecord kind
  return ⟨collection, Fin.ofNat _ id, record⟩

end EntryReader

namespace CrossShardWrite
open EntryReader

def encodeField (f : String × OrdValue) : Bytes :=
  leBytes 4 f.1.utf8ByteSize ++ (utf8 f.1 ++ encodeValue f.2)

def encodeRecord : Option Record → Bytes
  | none => [0]
  | some r => 1 :: (leBytes 4 r.size ++ r.entries.flatMap encodeField)

def encode (w : CrossShardWrite) : Bytes :=
  leBytes 4 w.collection.utf8ByteSize ++ (utf8 w.collection ++
    (leBytes 8 w.id.val ++ encodeRecord w.record))

/-- The write at the front of the buffer and the length it had there. -/
def decode (buf : Bytes) : Except EntryError (CrossShardWrite × ℕ) :=
  Reading.runOn (do
    let w ← rdWrite
    let used ← Reading.position
    return (w, used)) buf

end CrossShardWrite

namespace Journal
open CrossShardWrite

def magic : Bytes := utf8 "XSH1"

/-- What `write_journal` writes, in one call. -/
def bytes (entries : List CrossShardWrite) : Bytes := magic ++ entries.flatMap encode

/-- Stop at what is not a whole entry. -/
def loadEntries : ℕ → Bytes → List CrossShardWrite
  | 0, _ => []
  | fuel + 1, buf =>
    if buf.isEmpty then []
    else match decode buf with
      | .ok (w, used) => w :: loadEntries fuel (buf.drop used)
      | .error _ => []

def unreadableHeader : Error := .corruption "coordinator journal has an unreadable header"

/-- `load_journal`. Every entry is of thirteen bytes at least, so the fuel lasts. -/
def load (file : Option Bytes) : Except Error (List CrossShardWrite) :=
  match file with
  | none => .ok []
  | some raw =>
    if raw.isEmpty then .ok []
    else if raw.length < 4 ∨ raw.take 4 ≠ magic then .error unreadableHeader
    else .ok (loadEntries raw.length (raw.drop 4))

end Journal

/-! ## Staying within the buffer -/

namespace EntryReader
open Reading

/-- Reading an entry ends in an error of one of these kinds, whatever the bytes. -/
def Fine (_ : EntryError) : Prop := True

variable {n pos : ℕ} {buf : Bytes}

theorem readExact_ok (h : pos + n ≤ buf.length) :
    readExact n buf pos = .ok (slice buf pos n) (pos + n) := if_pos h

theorem contained_readExact (n : ℕ) : Contained Fine n (readExact n) := by
  intro buf pos hpos
  unfold Post
  by_cases hn : pos + n ≤ buf.length
  · rw [readExact_ok hn]
    refine ⟨Nat.le_refl _, hn, fun other hother htake => ?_⟩
    rw [readExact_ok hother, BufferReader.slice_of_take (Nat.le_refl _) htake]
  · rw [readExact, if_neg hn]
    trivial

theorem contained_rdU8 : Contained Fine 1 rdU8 :=
  (contained_readExact 1).bind_first fun _ => contained_pure _

theorem contained_rdU32 : Contained Fine 4 rdU32 :=
  (contained_readExact 4).bind_first fun _ => contained_pure _

theorem contained_rdU64 : Contained Fine 8 rdU64 :=
  (contained_readExact 8).bind_first fun _ => contained_pure _

theorem contained_text (b : Bytes) : Contained Fine 0 (checked (text b) : EntryReader String) := by
  unfold text
  cases decodeUtf8 b with
  | some s => exact contained_pure s
  | none => exact contained_throw trivial 0

theorem contained_rdStr : Contained Fine 4 rdStr :=
  contained_rdU32.bind_first fun n => (contained_readExact n).seq contained_text

theorem contained_rdValue : Contained Fine 1 rdValue := by
  intro buf pos hpos
  unfold Post rdValue
  cases h : decodeValue (buf.drop pos) with
  | error e => trivial
  | ok r =>
    obtain ⟨v, used⟩ := r
    obtain ⟨hmove, hin, -⟩ := (Checked.contained_readTlvValue (buf.drop pos) 0
      (Nat.zero_le _)).of_ok (Checked.decodeValue_stop h)
    rw [List.length_drop] at hin
    refine ⟨by omega, by omega, fun other hother htake => ?_⟩
    have hsame : decodeValue (other.drop pos) = .ok (v, used) := by
      refine Checked.decodeValue_settled h (by rw [List.length_drop]; omega) ?_
      have := congrArg (List.drop pos) htake
      rwa [List.drop_take, List.drop_take, Nat.add_sub_cancel_left] at this
    beta_reduce
    rw [hsame]

theorem contained_rdFields (n : ℕ) (r : Record) : Contained Fine 0 (rdFields n r) := by
  induction n generalizing r with
  | zero => exact contained_pure r
  | succ n ih => exact contained_rdStr.seq fun name => contained_rdValue.seq fun v => ih _

theorem contained_rdRecord (kind : UInt8) : Contained Fine 0 (rdRecord kind) :=
  .ite (contained_pure _) (.ite (contained_rdU32.seq fun n =>
    (contained_rdFields n ∅).seq fun _ => contained_pure _) (contained_throw trivial 0))

theorem contained_rdWrite : Contained Fine 4 rdWrite :=
  contained_rdStr.bind_first fun _ => contained_rdU64.seq fun _ => contained_rdU8.seq fun kind =>
    (contained_rdRecord kind).seq fun _ => contained_pure _

/-! ## Reading what was written -/

theorem parses_readExact {b : Bytes} (h : b.length = n) : Parses (readExact n) b b := by
  intro before after
  subst h
  rw [readExact_ok (by simp only [List.length_append]; omega)]
  simp [slice]

theorem parses_rdU8 (b : UInt8) : Parses rdU8 [b] b :=
  (parses_readExact (n := 1) (b := [b]) rfl).then (parses_pure b)

theorem parses_rdU32 {m : ℕ} (h : m < 2 ^ 32) : Parses rdU32 (leBytes 4 m) m := by
  refine (parses_readExact (leBytes_length 4 m)).then ?_
  rw [ofLeBytes_leBytes h]
  exact parses_pure m

theorem parses_rdU64 {m : ℕ} (h : m < 2 ^ 64) : Parses rdU64 (leBytes 8 m) m := by
  refine (parses_readExact (leBytes_length 8 m)).then ?_
  rw [ofLeBytes_leBytes h]
  exact parses_pure m

theorem parses_rdStr {s : String} (h : s.utf8ByteSize < 2 ^ 32) :
    Parses rdStr (leBytes 4 s.utf8ByteSize ++ utf8 s) s := by
  refine (parses_rdU32 h).bind ((parses_readExact (utf8_length s)).then ?_)
  rw [text, decodeUtf8_utf8]
  exact parses_pure s

theorem parses_rdValue {v : OrdValue} (h : Storage.ReadsBack v) : Parses rdValue (encodeValue v) v := by
  intro before after
  rw [rdValue, List.append_assoc, List.drop_left, h after]

theorem refuses_rdValue {v : OrdValue} (hlen : (encodeValue v).length < 2 ^ 64)
    (h : ¬ v.1.nesting ≤ maxDepth) : Refuses rdValue (encodeValue v) := by
  intro before after
  refine ⟨valueError tooDeep, before.length, ?_⟩
  rw [rdValue, List.append_assoc, List.drop_left, decodeValue_append hlen, if_neg h]

end EntryReader

namespace CrossShardWrite
open EntryReader Reading

/-- Names and values are no longer than their lengths can say. -/
structure FieldInWidth (f : String × OrdValue) : Prop where
  name : f.1.utf8ByteSize < 2 ^ 32
  value : (encodeValue f.2).length < 2 ^ 64

/-- The field is nested no deeper than it is read back. -/
def Shallow (f : String × OrdValue) : Prop := f.2.1.nesting ≤ maxDepth

instance (f : String × OrdValue) : Decidable (Shallow f) :=
  inferInstanceAs (Decidable (_ ≤ _))

structure InWidth (w : CrossShardWrite) : Prop where
  collection : w.collection.utf8ByteSize < 2 ^ 32
  size : ∀ r ∈ w.record, r.size < 2 ^ 32
  fields : ∀ r ∈ w.record, ∀ f ∈ r.entries, FieldInWidth f

def ReadsBack (w : CrossShardWrite) : Prop := ∀ r ∈ w.record, ∀ f ∈ r.entries, Shallow f

instance (w : CrossShardWrite) : Decidable w.ReadsBack := by
  unfold ReadsBack
  infer_instance

instance (f : String × OrdValue) : Decidable (FieldInWidth f) :=
  decidable_of_iff (f.1.utf8ByteSize < 2 ^ 32 ∧ (encodeValue f.2).length < 2 ^ 64)
    ⟨fun h => ⟨h.1, h.2⟩, fun h => ⟨h.name, h.value⟩⟩

instance (w : CrossShardWrite) : Decidable w.InWidth :=
  decidable_of_iff (w.collection.utf8ByteSize < 2 ^ 32 ∧ (∀ r ∈ w.record, r.size < 2 ^ 32) ∧
      ∀ r ∈ w.record, ∀ f ∈ r.entries, FieldInWidth f)
    ⟨fun h => ⟨h.1, h.2.1, h.2.2⟩, fun h => ⟨h.collection, h.size, h.fields⟩⟩

/-- What is written of the write is read back as it. -/
structure Legible (w : CrossShardWrite) : Prop where
  inWidth : w.InWidth
  readsBack : w.ReadsBack

instance (w : CrossShardWrite) : Decidable w.Legible :=
  decidable_of_iff (w.InWidth ∧ w.ReadsBack)
    ⟨fun h => ⟨h.1, h.2⟩, fun h => ⟨h.inWidth, h.readsBack⟩⟩

theorem parses_rdFields {fs : List (String × OrdValue)} (hw : ∀ f ∈ fs, FieldInWidth f)
    (hs : ∀ f ∈ fs, Shallow f) (r : Record) :
    Parses (rdFields fs.length r) (fs.flatMap encodeField) (r.insertAll fs) := by
  induction fs generalizing r with
  | nil => exact parses_pure r
  | cons f fs ih =>
    obtain ⟨hf, hfs⟩ := List.forall_mem_cons.mp hw
    obtain ⟨hd, hds⟩ := List.forall_mem_cons.mp hs
    rw [List.flatMap_cons, encodeField, ← List.append_assoc, List.append_assoc]
    exact (parses_rdStr hf.name).bind
      ((parses_rdValue ((readsBack_of_shallow hf.value).mpr hd)).bind (ih hfs hds _))

theorem refuses_rdFields {fs : List (String × OrdValue)} (hw : ∀ f ∈ fs, FieldInWidth f)
    (hs : ¬ ∀ f ∈ fs, Shallow f) (r : Record) :
    Refuses (rdFields fs.length r) (fs.flatMap encodeField) := by
  induction fs generalizing r with
  | nil => exact absurd (fun _ h => by cases h) hs
  | cons f fs ih =>
    obtain ⟨hf, hfs⟩ := List.forall_mem_cons.mp hw
    rw [List.flatMap_cons, encodeField, ← List.append_assoc, List.append_assoc]
    refine (parses_rdStr hf.name).refuses ?_
    by_cases hd : Shallow f
    · exact (parses_rdValue ((readsBack_of_shallow hf.value).mpr hd)).refuses
        (ih hfs (fun hall => hs (List.forall_mem_cons.mpr ⟨hd, hall⟩)) _)
    · exact (refuses_rdValue hf.value hd).bind _

variable {w : CrossShardWrite}

/-- What comes before the record. -/
theorem parses_header (h : w.InWidth) {kind : UInt8} {rest : Bytes}
    (hrest : encodeRecord w.record = kind :: rest) {P : EntryReader CrossShardWrite → Bytes → Prop}
    (hstep : ∀ {α : Type} {x : EntryReader α} {f : α → EntryReader CrossShardWrite} {a : α}
      {xs ys : Bytes}, Parses x xs a → P (f a) ys → P (x >>= f) (xs ++ ys))
    (hlast : P (do
      let record ← rdRecord kind
      return ⟨w.collection, w.id, record⟩) rest) : P rdWrite w.encode := by
  have hid : Fin.ofNat (2 ^ 64) w.id.val = w.id := Fin.ext (Nat.mod_eq_of_lt w.id.isLt)
  rw [encode, hrest, ← List.append_assoc]
  refine hstep (parses_rdStr h.collection) (hstep (parses_rdU64 w.id.isLt) ?_)
  rw [← List.singleton_append]
  refine hstep (parses_rdU8 kind) ?_
  rw [hid]
  exact hlast

theorem parses_encode (h : w.InWidth) (hs : w.ReadsBack) : Parses rdWrite w.encode w := by
  obtain ⟨collection, id, record⟩ := w
  cases record with
  | none =>
    exact parses_header h rfl (P := fun x xs => Parses x xs _) (fun hx hf => hx.bind hf)
      (parses_pure _)
  | some r =>
    refine parses_header h rfl (P := fun x xs => Parses x xs _) (fun hx hf => hx.bind hf) ?_
    have hfields := parses_rdFields (h.fields r rfl) (hs r rfl) ∅
    rw [OrdMap.insertAll_entries] at hfields
    refine Parses.then (a := some r) ?_ (parses_pure _)
    exact (parses_rdU32 (h.size r rfl)).bind (hfields.then (parses_pure _))

theorem refuses_encode (h : w.InWidth) (hs : ¬ w.ReadsBack) : Refuses rdWrite w.encode := by
  obtain ⟨collection, id, record⟩ := w
  cases record with
  | none => exact absurd (fun _ h => by cases h) hs
  | some r =>
    refine parses_header h rfl (P := Refuses) (fun hx hf => hx.refuses hf) ?_
    have hdeep : ¬ ∀ f ∈ r.entries, Shallow f := fun hall => hs fun r' hr' =>
      Option.some.inj hr' ▸ hall
    refine Refuses.then (x := rdRecord 1) ?_
    exact (parses_rdU32 (h.size r rfl)).refuses (refuses_rdFields (h.fields r rfl) hdeep ∅).then

/-! ## Entries -/

theorem decode_ok {buf : Bytes} {used : ℕ} (h : rdWrite buf 0 = .ok w used) :
    decode buf = .ok (w, used) := by
  apply runOn_ok
  rw [bind_ok h]
  rfl

theorem decode_error {buf : Bytes} (h : ∀ w, rdWrite.runOn buf ≠ .ok w) :
    ∃ e, decode buf = .error e := by
  cases hr : rdWrite buf 0 with
  | ok w used => exact absurd (runOn_ok hr) (h w)
  | error e stop => exact ⟨e, runOn_error (bind_error hr)⟩

/-- An entry is read back at the front of a buffer, if it is read back at all. -/
theorem decode_encode (h : w.InWidth) (rest : Bytes) :
    (w.ReadsBack → decode (w.encode ++ rest) = .ok (w, w.encode.length)) ∧
      (¬ w.ReadsBack → ∃ e, decode (w.encode ++ rest) = .error e) := by
  constructor
  · intro hs
    have hread := parses_encode h hs [] rest
    rw [List.nil_append, List.length_nil, Nat.zero_add] at hread
    exact decode_ok hread
  · intro hs
    obtain ⟨e, stop, hread⟩ := refuses_encode h hs [] rest
    exact ⟨e, runOn_error (bind_error hread)⟩

/-- A part of an entry is not read as one. -/
theorem decode_part (h : w.InWidth) {m : ℕ} (hm : m < w.encode.length) :
    ∃ e, decode (w.encode.take m) = .error e := by
  have hsplit := (List.take_append_drop m w.encode).symm
  have hrest : w.encode.drop m ≠ [] := fun he => by
    have := List.drop_eq_nil_iff.mp he
    omega
  refine decode_error fun v => ?_
  by_cases hs : w.ReadsBack
  · exact (parses_encode h hs).noPrefix contained_rdWrite hsplit hrest v
  · exact (refuses_encode h hs).noPrefix contained_rdWrite hsplit v

theorem length_encode (w : CrossShardWrite) : 4 ≤ w.encode.length := by
  rw [encode, List.length_append, leBytes_length]
  exact Nat.le_add_right _ _

end CrossShardWrite

/-! ## Loading what a crash left -/

namespace Journal
open CrossShardWrite

/-- The entries that end within the first bytes of them all. -/
def whole : ℕ → List CrossShardWrite → List CrossShardWrite
  | _, [] => []
  | m, w :: ws =>
    if w.encode.length ≤ m then w :: whole (m - w.encode.length) ws else []

variable {ws : List CrossShardWrite}

theorem loadEntries_nil (fuel : ℕ) : loadEntries fuel [] = [] := by
  cases fuel with
  | zero => rfl
  | succ fuel => rfl

theorem loadEntries_error {buf : Bytes} (h : ∃ e, decode buf = .error e) (fuel : ℕ) :
    loadEntries fuel buf = [] := by
  obtain ⟨e, he⟩ := h
  cases fuel with
  | zero => rfl
  | succ fuel =>
    rw [loadEntries, he]
    exact ite_self _

theorem loadEntries_cut (h : ∀ w ∈ ws, w.InWidth) (m fuel : ℕ)
    (hfuel : ((ws.flatMap encode).take m).length ≤ fuel) :
    loadEntries fuel ((ws.flatMap encode).take m) =
      (whole m ws).takeWhile fun w => w.ReadsBack := by
  induction ws generalizing m fuel with
  | nil =>
    rw [List.flatMap_nil, List.take_nil]
    exact loadEntries_nil fuel
  | cons w ws ih =>
    obtain ⟨hw, hws⟩ := List.forall_mem_cons.mp h
    rw [List.flatMap_cons] at hfuel ⊢
    rw [whole]
    by_cases hm : w.encode.length ≤ m
    · rw [List.take_append, List.take_of_length_le hm] at hfuel ⊢
      rw [if_pos hm]
      obtain ⟨hok, herr⟩ := decode_encode hw ((ws.flatMap encode).take (m - w.encode.length))
      by_cases hs : w.ReadsBack
      · rw [List.length_append] at hfuel
        have hlen := length_encode w
        cases fuel with
        | zero => omega
        | succ fuel =>
          have hne : (w.encode ++ (ws.flatMap encode).take (m - w.encode.length)).isEmpty = false := by
            rw [List.isEmpty_eq_false_iff, ← List.length_pos_iff, List.length_append]
            omega
          rw [loadEntries, hne, hok hs]
          dsimp only
          rw [if_neg Bool.false_ne_true, List.drop_left, ih hws _ _ (by omega)]
          exact (List.takeWhile_cons_of_pos (by simpa using hs)).symm
      · rw [loadEntries_error (herr hs), List.takeWhile_cons_of_neg (by simpa using hs)]
    · rw [List.take_append_of_le_length (by omega), if_neg hm,
        loadEntries_error (decode_part hw (by omega))]
      rfl

theorem length_magic : magic.length = 4 := by decide

/-- What is loaded after a crash that left the first `n` bytes of a journal: nothing from an
empty file, an error from a part of the four first bytes, and else every write whose entry
is whole, up to the first that nests a value too deep to be read. -/
theorem load_cut (ws : List CrossShardWrite) (h : ∀ w ∈ ws, w.InWidth) (n : ℕ) :
    load (some ((bytes ws).take n)) =
      if n = 0 then .ok []
      else if n < 4 then .error unreadableHeader
      else .ok ((whole (n - 4) ws).takeWhile fun w => w.ReadsBack) := by
  have hmagic := length_magic
  rcases Nat.eq_zero_or_pos n with rfl | hpos
  · rfl
  have hne : ((bytes ws).take n).isEmpty = false := by
    rw [List.isEmpty_eq_false_iff, ← List.length_pos_iff, List.length_take, bytes,
      List.length_append]
    omega
  rw [load, if_neg (Nat.pos_iff_ne_zero.mp hpos), hne, if_neg Bool.false_ne_true]
  by_cases hn : n < 4
  · rw [if_pos hn, if_pos]
    left
    rw [List.length_take]
    omega
  · rw [if_neg hn]
    have htake : (bytes ws).take n = magic ++ (ws.flatMap encode).take (n - 4) := by
      rw [bytes, List.take_append, List.take_of_length_le (by omega), hmagic]
    rw [htake, if_neg, List.drop_left' hmagic, loadEntries_cut h]
    · rw [List.length_append]
      omega
    · rw [List.take_left' hmagic, List.length_append]
      simp [hmagic]

/-- The middle one of three writes nests a value too deep; the file ends within the last. -/
def torn : List CrossShardWrite :=
  [⟨"c", 1, none⟩, ⟨"c", 2, some ((∅ : Record).set "f" (nested 65))⟩, ⟨"d", 3, none⟩]

theorem load_cut_torn :
    load (some ((bytes torn).take 180)) =
      if 180 = 0 then .ok []
      else if 180 < 4 then .error unreadableHeader
      else .ok ((whole (180 - 4) torn).takeWhile fun w => w.ReadsBack) :=
  load_cut torn (by decide +kernel) 180

theorem whole_all (ws : List CrossShardWrite) {m : ℕ} (h : (ws.flatMap encode).length ≤ m) :
    whole m ws = ws := by
  induction ws generalizing m with
  | nil => rfl
  | cons w ws ih =>
    rw [List.flatMap_cons, List.length_append] at h
    rw [whole, if_pos (by omega), ih (by omega)]

theorem whole_initial (ws : List CrossShardWrite) (m : ℕ) : whole m ws <+: ws := by
  induction ws generalizing m with
  | nil => exact List.nil_prefix
  | cons w ws ih =>
    rw [whole]
    split_ifs
    · exact List.prefix_cons_inj w |>.mpr (ih _)
    · exact List.nil_prefix

theorem load_cut_legible (h : ∀ w ∈ ws, w.Legible) (n : ℕ) :
    load (some ((bytes ws).take n)) =
      if n = 0 then .ok [] else if n < 4 then .error unreadableHeader
      else .ok (whole (n - 4) ws) := by
  have hall : (whole (n - 4) ws).takeWhile (fun w => w.ReadsBack) = whole (n - 4) ws :=
    List.takeWhile_eq_self_iff.mpr fun w hw => decide_eq_true (h w ((whole_initial ws _).subset hw)).readsBack
  rw [load_cut ws (fun w hw => (h w hw).inWidth), hall]

theorem load_bytes (h : ∀ w ∈ ws, w.Legible) : load (some (bytes ws)) = .ok ws := by
  have hcut := load_cut_legible h (bytes ws).length
  have hlen : (bytes ws).length = 4 + (ws.flatMap encode).length := by
    rw [bytes, List.length_append, length_magic]
  rw [List.take_length, if_neg (by omega), if_neg (by omega), whole_all ws (by omega)] at hcut
  exact hcut

end Journal

end Adabt.Engine
