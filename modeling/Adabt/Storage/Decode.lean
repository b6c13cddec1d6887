import Adabt.Storage.Codec
import Adabt.Storage.TlvRoundTrip

/-! # Decoding an encoded record

Where its pieces lie, and what each loop of the decoder reads from them. -/

set_option autoImplicit false

namespace Adabt.Storage
open Adabt.Core Adabt.Library

/-! ## Where the pieces of a record lie

Facts about the bitmap, the fixed region and the offset table of an encoded
record, as its decoder addresses them. -/

theorem markBit_length (c : Prop) [Decidable c] (map : Bytes) (i : ℕ) :
    (if c then bitSet map i else map).length = map.length := by
  split <;> simp

theorem setBits_length (rec : Record) (i : ℕ) (fields : List FieldDef) (map : Bytes) :
    (setBits rec i fields map).length = map.length := by
  induction fields generalizing i map with
  | nil => rfl
  | cons f rest ih =>
    rw [setBits, ih, markBit_length]

@[simp] theorem presenceBits_length (rec : Record) (fields : List FieldDef) :
    (presenceBits rec fields).length = bitmapLen fields.length := by
  rw [presenceBits, setBits_length, List.length_replicate]

theorem bitGet_setBits_lt (rec : Record) (i j : ℕ) (fields : List FieldDef) (map : Bytes)
    (hj : j < i) (hlen : i + fields.length ≤ 8 * map.length) :
    bitGet (setBits rec i fields map) j = bitGet map j := by
  induction fields generalizing i map with
  | nil => rfl
  | cons f rest ih =>
    rw [List.length_cons] at hlen
    rw [setBits, ih (i + 1) _ (by omega) (by rw [markBit_length]; omega)]
    split
    · rw [bitGet_bitSet _ _ _ (by omega)]
      simp [show i ≠ j by omega]
    · rfl

theorem bitGet_setBits (rec : Record) (i j : ℕ) (fields : List FieldDef) (map : Bytes)
    (hlen : i + fields.length ≤ 8 * map.length) (hfree : ∀ k, i ≤ k → bitGet map k = false) :
    bitGet (setBits rec i fields map) (i + j) = ((fields[j]?).bind (present rec)).isSome := by
  induction fields generalizing i j map with
  | nil => simpa [setBits] using hfree (i + j) (by omega)
  | cons f rest ih =>
    rw [List.length_cons] at hlen
    have hfree' : ∀ k, i + 1 ≤ k →
        bitGet (if (present rec f).isSome then bitSet map i else map) k = false := by
      intro k hk
      split
      · rw [bitGet_bitSet _ _ _ (by omega), hfree k (by omega)]
        simp [show i ≠ k by omega]
      · exact hfree k (by omega)
    rw [setBits]
    cases j with
    | zero =>
      rw [bitGet_setBits_lt _ _ _ _ _ (by omega) (by rw [markBit_length]; omega),
        List.getElem?_cons_zero, Option.bind_some, show i + 0 = i from rfl]
      split
      · rw [bitGet_bitSet _ _ _ (by omega), decide_eq_true rfl, Bool.true_or]
        exact (‹(present rec f).isSome = true›).symm
      · rw [hfree i (le_refl i)]
        exact (Bool.not_eq_true _ ▸ ‹¬ (present rec f).isSome = true›).symm
    | succ j =>
      rw [show i + (j + 1) = i + 1 + j by omega,
        ih (i + 1) j _ (by rw [markBit_length]; omega) hfree', List.getElem?_cons_succ]

/-- Bit `j` of a record's bitmap says whether its field `j` is there. -/
theorem bitGet_presenceBits (rec : Record) (fields : List FieldDef) (j : ℕ) :
    bitGet (presenceBits rec fields) j = ((fields[j]?).bind (present rec)).isSome := by
  have h := bitGet_setBits rec 0 j fields (List.replicate (bitmapLen fields.length) 0)
    (by rw [List.length_replicate, bitmapLen]; omega) (fun k _ => bitGet_replicate _ k)
  rwa [Nat.zero_add] at h

def fixedWidths : List FieldDef → ℕ
  | [] => 0
  | f :: rest => (f.ty.fixedWidth.getD 0).toNat + fixedWidths rest

theorem fixedWidths_append (xs ys : List FieldDef) :
    fixedWidths (xs ++ ys) = fixedWidths xs + fixedWidths ys := by
  induction xs with
  | nil => simp [fixedWidths]
  | cons f rest ih => simp [fixedWidths, ih, Nat.add_assoc]

theorem add_width_toNat (off w : UInt32) (h : off.toNat + w.toNat < 2 ^ 32) :
    (off + w).toNat = off.toNat + w.toNat := by
  rw [UInt32.toNat_add, Nat.mod_eq_of_lt h]

theorem regionLen_toNat (off : UInt32) (fields : List FieldDef)
    (h : off.toNat + fixedWidths fields < 2 ^ 32) :
    (regionLen off fields).toNat = off.toNat + fixedWidths fields := by
  induction fields generalizing off with
  | nil => rfl
  | cons f rest ih =>
    rw [fixedWidths] at h ⊢
    have hadd := add_width_toNat off (f.ty.fixedWidth.getD 0) (by omega)
    rw [regionLen, ih _ (by omega), hadd]
    omega

theorem fixedFields_append (i : ℕ) (off : UInt32) (xs ys : List FieldDef) :
    fixedFields i off (xs ++ ys) =
      fixedFields i off xs ++ fixedFields (i + xs.length) (regionLen off xs) ys := by
  induction xs generalizing i off with
  | nil => rfl
  | cons f rest ih =>
    rw [List.cons_append, fixedFields, fixedFields, regionLen, List.length_cons]
    cases hw : f.ty.fixedWidth with
    | none => simp [ih, Nat.add_assoc, Nat.add_comm 1]
    | some w => simp [ih, Nat.add_assoc, Nat.add_comm 1]

theorem varFields_append (i : ℕ) (xs ys : List FieldDef) :
    varFields i (xs ++ ys) = varFields i xs ++ varFields (i + xs.length) ys := by
  induction xs generalizing i with
  | nil => rfl
  | cons f rest ih =>
    rw [List.cons_append, varFields, varFields, List.length_cons]
    cases hw : f.ty.fixedWidth with
    | none => simp [ih, Nat.add_assoc, Nat.add_comm 1]
    | some w => simp [ih, Nat.add_assoc, Nat.add_comm 1]

theorem fixedFields_index (i : ℕ) (off : UInt32) (fields : List FieldDef) (x : FixedField)
    (h : x ∈ fixedFields i off fields) : ∃ j, x.index = i + j ∧ fields[j]? = some x.field := by
  induction fields generalizing i off with
  | nil => simp [fixedFields] at h
  | cons f rest ih =>
    rw [fixedFields] at h
    cases hw : f.ty.fixedWidth with
    | none =>
      obtain ⟨j, hj, hx⟩ := ih (i + 1) off (by simpa [hw] using h)
      exact ⟨j + 1, by omega, hx⟩
    | some w =>
      rw [hw] at h
      rcases List.mem_cons.mp h with rfl | h
      · exact ⟨0, rfl, rfl⟩
      · obtain ⟨j, hj, hx⟩ := ih (i + 1) _ h
        exact ⟨j + 1, by omega, hx⟩

/-! ## Reading the pieces of an encoded record

Each loop of the decoder, run over the piece its counterpart wrote, restores
the fields that were there and skips the rest. The fields read may be fewer
than the fields written, and may go on past them where no bit is set. -/

def restoreField (rec : Record) (f : FieldDef) (r : Record) : Record :=
  match present rec f with
  | some v => r.set f.name (stored f.ty v)
  | none => r

/-- Restore the fields that satisfy `p`, in order. -/
def restoreIf (p : FieldDef → Bool) (rec : Record) : List FieldDef → Record → Record
  | [], r => r
  | f :: rest, r => restoreIf p rec rest (if p f then restoreField rec f r else r)

def isFixed (f : FieldDef) : Bool := f.ty.fixedWidth.isSome

def isVariable (f : FieldDef) : Bool := f.ty.fixedWidth.isNone

/-- A value the field's own reader gives back. -/
def ValueReady (f : FieldDef) (v : OrdValue) : Prop :=
  if f.ty.fixedWidth.isSome then SlotReady f.ty v
  else v.1.nesting ≤ maxDepth ∧ (writeTlv v.1).length < 2 ^ 64

def RowReady (rec : Record) (fields : List FieldDef) : Prop :=
  ∀ f ∈ fields, (f.ty.IsText → f.ty.contentCapacity.getD 0 ≠ 0) ∧
    ∀ v, present rec f = some v → ValueReady f v

theorem RowReady.tail {rec : Record} {f : FieldDef} {rest : List FieldDef}
    (h : RowReady rec (f :: rest)) : RowReady rec rest :=
  fun g hg => h g (List.mem_cons_of_mem _ hg)

theorem RowReady.left {rec : Record} {xs ys : List FieldDef} (h : RowReady rec (xs ++ ys)) :
    RowReady rec xs :=
  fun g hg => h g (List.mem_append_left _ hg)

/-- A row that can be written: its slots take their values. -/
def RowWritable (rec : Record) (fields : List FieldDef) : Prop :=
  ∀ f ∈ fields, (f.ty.IsText → f.ty.contentCapacity.getD 0 ≠ 0) ∧
    ∀ v, present rec f = some v → f.ty.fixedWidth.isSome → SlotReady f.ty v

/-- No value of variable width is nested beyond the reader's limit. -/
def Shallow (rec : Record) (fields : List FieldDef) : Prop :=
  ∀ f ∈ fields, isVariable f = true → ∀ v ∈ present rec f, v.1.nesting ≤ maxDepth

instance (rec : Record) (fields : List FieldDef) : Decidable (Shallow rec fields) :=
  inferInstanceAs (Decidable (∀ f ∈ fields, _ → _))

theorem RowWritable.tail {rec : Record} {f : FieldDef} {rest : List FieldDef}
    (h : RowWritable rec (f :: rest)) : RowWritable rec rest :=
  fun g hg => h g (List.mem_cons_of_mem _ hg)

theorem RowReady.writable {rec : Record} {fields : List FieldDef} (h : RowReady rec fields) :
    RowWritable rec fields := by
  refine fun f hf => ⟨(h f hf).1, fun v hv hw => ?_⟩
  have hready := (h f hf).2 v hv
  rwa [ValueReady, if_pos hw] at hready

theorem RowReady.shallow {rec : Record} {fields : List FieldDef} (h : RowReady rec fields) :
    Shallow rec fields := by
  intro f hf hvar v hv
  have hready := (h f hf).2 v hv
  rw [ValueReady, if_neg (by simpa [isVariable] using hvar)] at hready
  exact hready.1

theorem slice_middle (A S B : Bytes) {lo : ℕ} (h : A.length = lo) :
    RecordCodec.slice (A ++ (S ++ B)) lo (lo + S.length) = S := by
  subst h
  simp [RecordCodec.slice]

/-- One slot: what is written fills its width and reads back when present. -/
theorem writeSlot_ok {rec : Record} {f : FieldDef} {w : UInt32} (hw : f.ty.fixedWidth = some w)
    (hcap : f.ty.IsText → f.ty.contentCapacity.getD 0 ≠ 0)
    (hready : ∀ v, present rec f = some v → f.ty.fixedWidth.isSome → SlotReady f.ty v) :
    ∃ slot, writeSlot rec f w = .ok slot ∧ slot.length = w.toNat ∧
      ∀ v, present rec f = some v → readFixedField f.ty slot = .ok (stored f.ty v) := by
  rw [writeSlot]
  cases hp : present rec f with
  | none => exact ⟨_, rfl, List.length_replicate, fun v hv => by cases hv⟩
  | some v =>
    have hv := hready v hp (by rw [hw]; rfl)
    obtain ⟨slot, hwrite, hlen, hread⟩ := fixedSlot_roundTrip hw hcap hv
    exact ⟨slot, hwrite, hlen, fun u hu => Option.some.inj hu ▸ hread⟩

theorem writeFixedRegion_ok (rec : Record) (i : ℕ) (off : UInt32) (fields : List FieldDef)
    (h : RowWritable rec fields) : ∃ region,
    writeFixedRegion rec (fixedFields i off fields) = .ok region ∧
      region.length = fixedWidths fields := by
  induction fields generalizing i off with
  | nil => exact ⟨[], rfl, rfl⟩
  | cons f rest ih =>
    obtain ⟨hcap, hready⟩ := h f List.mem_cons_self
    rw [fixedFields, fixedWidths]
    cases hw : f.ty.fixedWidth with
    | none =>
      obtain ⟨region, hr, hlen⟩ := ih (i + 1) off h.tail
      exact ⟨region, hr, by simpa using hlen⟩
    | some w =>
      obtain ⟨slot, hs, hslot, -⟩ := writeSlot_ok hw hcap hready
      obtain ⟨region, hr, hlen⟩ := ih (i + 1) (off + w) h.tail
      refine ⟨slot ++ region, ?_, by rw [List.length_append, hslot, hlen]; rfl⟩
      rw [writeFixedRegion, hs, ok_bind, hr]
      rfl

/-- Reading the fixed region of a row restores its fixed-width fields. -/
theorem readFixedFields_region {rec : Record} {fields : List FieldDef} {bitmap : Bytes}
    {fixedAt : ℕ} (h : RowWritable rec fields) (i k : ℕ) (off : UInt32) (r : Record)
    (A B region : Bytes) (hregion : writeFixedRegion rec (fixedFields i off fields) = .ok region)
    (hA : A.length = fixedAt + off.toNat) (hoff : off.toNat + fixedWidths fields < 2 ^ 32)
    (hbits : ∀ j < fields.length,
      bitGet bitmap (i + j) = ((fields[j]?).bind (present rec)).isSome) :
    RecordCodec.readFixedFields (A ++ (region ++ B)) bitmap fixedAt k (fixedFields i off fields) r
      = .ok (restoreIf isFixed rec fields r) := by
  induction fields generalizing i k off r A region with
  | nil => rfl
  | cons f rest ih =>
    obtain ⟨hcap, hready⟩ := h f List.mem_cons_self
    have hbits' : ∀ j < rest.length,
        bitGet bitmap (i + 1 + j) = ((rest[j]?).bind (present rec)).isSome := by
      intro j hj
      have := hbits (j + 1) (by rw [List.length_cons]; omega)
      rwa [List.getElem?_cons_succ, show i + (j + 1) = i + 1 + j by omega] at this
    have hbit := hbits 0 (by simp)
    rw [List.getElem?_cons_zero, Option.bind_some, Nat.add_zero] at hbit
    rw [fixedWidths] at hoff
    rw [fixedFields] at hregion ⊢
    rw [restoreIf, isFixed]
    cases hw : f.ty.fixedWidth with
    | none =>
      simp only [hw, Option.getD_none, UInt32.toNat_zero] at hregion hoff ⊢
      exact ih h.tail (i + 1) k off r A region hregion hA (by omega) hbits'
    | some w =>
      obtain ⟨slot, hs, hslot, hread⟩ := writeSlot_ok hw hcap hready
      simp only [hw, Option.getD_some] at hregion hoff ⊢
      rw [writeFixedRegion, hs, ok_bind] at hregion
      obtain ⟨region', hr, hcat⟩ := bind_eq_ok.mp hregion
      obtain rfl : slot ++ region' = region := Except.ok.inj hcat
      have hadd := add_width_toNat off w (by omega)
      have hih := fun r => ih h.tail (i + 1) (k + 1) (off + w) r (A ++ slot) region' hr
        (by rw [List.length_append, hA, hslot, hadd]; omega) (by omega) hbits'
      rw [List.append_assoc A slot] at hih
      rw [List.append_assoc slot, RecordCodec.readFixedFields]
      simp only [hbit]
      cases hp : present rec f with
      | none =>
        simpa [restoreField, hp] using hih r
      | some v =>
        have hlen : ¬ (A ++ (slot ++ (region' ++ B))).length < fixedAt + off.toNat + w.toNat := by
          simp only [List.length_append, hA, hslot]
          omega
        have hslice := slice_middle A slot (region' ++ B) hA
        rw [hslot] at hslice
        simp only [Option.isSome_some, if_true, restoreField, hp, if_neg hlen, hslice,
          hread v hp, ok_bind]
        exact hih _

theorem readFixedFields_append (buf bitmap : Bytes) (fixedAt k : ℕ) (xs ys : List FixedField)
    (r : Record) : RecordCodec.readFixedFields buf bitmap fixedAt k (xs ++ ys) r = (do
      let r ← RecordCodec.readFixedFields buf bitmap fixedAt k xs r
      RecordCodec.readFixedFields buf bitmap fixedAt (k + xs.length) ys r) := by
  induction xs generalizing k r with
  | nil => rfl
  | cons x xs ih =>
    rw [List.cons_append, RecordCodec.readFixedFields, RecordCodec.readFixedFields,
      List.length_cons, show k + (xs.length + 1) = k + 1 + xs.length by omega]
    split
    · simp only
      split
      · rfl
      · cases readFixedField x.field.ty _ with
        | error e => rfl
        | ok v => exact ih (k + 1) _
    · exact ih (k + 1) r

/-- Fields whose bit is not set are passed over. -/
theorem readFixedFields_absent (buf bitmap : Bytes) (fixedAt k : ℕ) (xs : List FixedField)
    (r : Record) (h : ∀ x ∈ xs, bitGet bitmap x.index = false) :
    RecordCodec.readFixedFields buf bitmap fixedAt k xs r = .ok r := by
  induction xs generalizing k with
  | nil => rfl
  | cons x xs ih =>
    rw [RecordCodec.readFixedFields, h x List.mem_cons_self]
    exact ih (k + 1) fun y hy => h y (List.mem_cons_of_mem _ hy)

theorem drop_writeTable (offs : List ℕ) (C : Bytes) (k : ℕ) (hk : k < offs.length) :
    ((writeTable offs ++ C).drop (4 * k)).take 4 = leBytes 4 offs[k] := by
  induction offs generalizing k with
  | nil => exact absurd hk (Nat.not_lt_zero _)
  | cons o rest ih =>
    have hsplit : writeTable (o :: rest) ++ C = leBytes 4 o ++ (writeTable rest ++ C) := by
      rw [writeTable, List.flatMap_cons, List.append_assoc]
      rfl
    rw [hsplit]
    cases k with
    | zero => simp
    | succ k =>
      rw [Nat.mul_succ, Nat.add_comm, ← List.drop_drop]
      have h4 : (leBytes 4 o ++ (writeTable rest ++ C)).drop 4 = writeTable rest ++ C := by
        rw [List.drop_left' (leBytes_length 4 o)]
      rw [h4, ih k (by simpa using hk), List.getElem_cons_succ]

/-- An offset read from the table is the offset written there. -/
theorem offsetAt_table (A C : Bytes) (offs : List ℕ) {tableAt k : ℕ} (hA : A.length = tableAt)
    {o : ℕ} (ho : offs[k]? = some o) (hlt : o < 2 ^ 32) :
    RecordCodec.offsetAt (A ++ (writeTable offs ++ C)) tableAt k = o := by
  obtain ⟨hk, rfl⟩ := List.getElem?_eq_some_iff.mp ho
  subst hA
  rw [RecordCodec.offsetAt, RecordCodec.slice, List.drop_append, List.drop_of_length_le (by omega),
    List.nil_append, Nat.add_sub_cancel_left, Nat.add_sub_cancel_left, drop_writeTable offs C k hk,
    ofLeBytes_leBytes hlt]

@[simp] theorem writeTable_length (offs : List ℕ) : (writeTable offs).length = 4 * offs.length := by
  induction offs with
  | nil => rfl
  | cons o rest ih =>
    rw [writeTable, List.flatMap_cons, List.length_append, leBytes_length, ← writeTable, ih,
      List.length_cons]
    omega

@[simp] theorem varOffsets_length (rec : Record) (xs : List VarField) (pos : ℕ) :
    (varOffsets rec xs pos).length = xs.length + 1 := by
  induction xs generalizing pos with
  | nil => rfl
  | cons x xs ih => rw [varOffsets, List.length_cons, ih, List.length_cons]

theorem varOffsets_head (rec : Record) (xs : List VarField) (pos : ℕ) :
    (varOffsets rec xs pos)[0]? = some pos := by
  cases xs <;> rfl

/-- The offsets of a shorter list of fields start those of a longer one. -/
theorem varOffsets_append (rec : Record) (xs ys : List VarField) (pos j : ℕ)
    (hj : j ≤ xs.length) :
    (varOffsets rec (xs ++ ys) pos)[j]? = (varOffsets rec xs pos)[j]? := by
  induction xs generalizing pos j with
  | nil =>
    obtain rfl : j = 0 := by simpa using hj
    rw [varOffsets_head, varOffsets_head]
  | cons x xs ih =>
    rw [List.cons_append, varOffsets, varOffsets]
    cases j with
    | zero => rfl
    | succ j =>
      rw [List.getElem?_cons_succ, List.getElem?_cons_succ,
        ih _ j (by simpa using hj)]

theorem varOffsets_le (rec : Record) (xs : List VarField) (pos : ℕ) {j o : ℕ}
    (h : (varOffsets rec xs pos)[j]? = some o) : o ≤ pos + (writeVariable rec xs).length := by
  induction xs generalizing pos j with
  | nil =>
    rw [varOffsets, List.getElem?_singleton] at h
    split at h <;> simp_all
  | cons x xs ih =>
    rw [writeVariable, List.length_append]
    cases j with
    | zero =>
      rw [varOffsets_head] at h
      have := Option.some.inj h
      omega
    | succ j =>
      rw [varOffsets, List.getElem?_cons_succ] at h
      have := ih _ h
      omega

theorem checkOffsets_varOffsets (rec : Record) (xs : List VarField) {last pos : ℕ}
    (h : last ≤ pos) : RecordCodec.checkOffsets last (varOffsets rec xs pos) =
      .ok (pos + (writeVariable rec xs).length) := by
  induction xs generalizing last pos with
  | nil => rw [varOffsets, RecordCodec.checkOffsets, if_neg (Nat.not_lt.mpr h)]; rfl
  | cons x xs ih =>
    rw [varOffsets, RecordCodec.checkOffsets, if_neg (Nat.not_lt.mpr h), ih (by omega),
      writeVariable, List.length_append, Nat.add_assoc]

theorem checkOffsets_tail (rec : Record) (xs : List VarField) (pos : ℕ) :
    RecordCodec.checkOffsets pos (varOffsets rec xs pos).tail =
      .ok (pos + (writeVariable rec xs).length) := by
  cases xs with
  | nil => rfl
  | cons x xs =>
    rw [varOffsets, List.tail_cons, checkOffsets_varOffsets rec xs (by omega), writeVariable,
      List.length_append, Nat.add_assoc]

theorem shallow_cons {rec : Record} {f : FieldDef} {rest : List FieldDef} :
    Shallow rec (f :: rest) ↔
      (isVariable f = true → ∀ v ∈ present rec f, v.1.nesting ≤ maxDepth) ∧ Shallow rec rest :=
  List.forall_mem_cons

/-- Reading the variable region of a row restores its variable-width fields, unless
one of them is nested too deep. -/
theorem readVarFields_region {rec : Record} {fields : List FieldDef} {buf bitmap : Bytes}
    {tableAt : ℕ} (hlen : buf.length < 2 ^ 64) (i k pos : ℕ) (r : Record) (D C : Bytes)
    (hbuf : buf = D ++ (writeVariable rec (varFields i fields) ++ C)) (hD : D.length = pos)
    (hoffs : ∀ j ≤ (varFields i fields).length,
      (varOffsets rec (varFields i fields) pos)[j]? =
        some (RecordCodec.offsetAt buf tableAt (k + j)))
    (hbits : ∀ j < fields.length,
      bitGet bitmap (i + j) = ((fields[j]?).bind (present rec)).isSome) :
    RecordCodec.readVarFields buf bitmap tableAt k (varFields i fields) r =
      if Shallow rec fields then .ok (restoreIf isVariable rec fields r) else .error tooDeep := by
  induction fields generalizing i k pos r D with
  | nil => rfl
  | cons f rest ih =>
    have hbits' : ∀ j < rest.length,
        bitGet bitmap (i + 1 + j) = ((rest[j]?).bind (present rec)).isSome := by
      intro j hj
      have := hbits (j + 1) (by rw [List.length_cons]; omega)
      rwa [List.getElem?_cons_succ, show i + (j + 1) = i + 1 + j by omega] at this
    have hbit := hbits 0 (by simp)
    rw [List.getElem?_cons_zero, Option.bind_some, Nat.add_zero] at hbit
    rw [varFields] at hbuf hoffs ⊢
    rw [restoreIf, isVariable]
    cases hw : f.ty.fixedWidth with
    | some w =>
      have hhead : Shallow rec (f :: rest) ↔ Shallow rec rest := by
        simp [shallow_cons, isVariable, hw]
      simp only [hw, hhead] at hbuf hoffs ⊢
      exact ih (i + 1) k pos r D hbuf hD hoffs hbits'
    | none =>
      simp only [hw, writeVariable] at hbuf hoffs ⊢
      have hlo : RecordCodec.offsetAt buf tableAt k = pos := by
        have := hoffs 0 (by omega)
        rw [varOffsets_head] at this
        exact (Option.some.inj this).symm
      have hhi : RecordCodec.offsetAt buf tableAt (k + 1) =
          pos + (writePresent rec f).length := by
        have := hoffs 1 (by simp)
        rw [varOffsets, List.getElem?_cons_succ, varOffsets_head] at this
        exact (Option.some.inj this).symm
      have hih := fun r => ih (i + 1) (k + 1) (pos + (writePresent rec f).length) r
        (D ++ writePresent rec f) (by rw [hbuf]; simp) (by simp [hD]) (by
          intro j hj
          have := hoffs (j + 1) (by rw [List.length_cons]; omega)
          rw [varOffsets, List.getElem?_cons_succ] at this
          rw [this, show k + (j + 1) = k + 1 + j by omega]) hbits'
      rw [RecordCodec.readVarFields]
      simp only [hbit]
      cases hp : present rec f with
      | none =>
        have hhead : Shallow rec (f :: rest) ↔ Shallow rec rest := by simp [shallow_cons, hp]
        simpa [restoreField, hp, hhead] using hih r
      | some v =>
        have hpresent : writePresent rec f = writeTlv v.1 := by rw [writePresent, hp]
        have hv : (writeTlv v.1).length < 2 ^ 64 := by
          simp only [hbuf, hpresent, List.length_append] at hlen
          omega
        have hslice : RecordCodec.slice buf pos (pos + (writeTlv v.1).length) = writeTlv v.1 := by
          rw [hbuf, hpresent, List.append_assoc]
          exact slice_middle D _ _ hD
        have hhead : Shallow rec (f :: rest) ↔ v.1.nesting ≤ maxDepth ∧ Shallow rec rest := by
          simp [shallow_cons, isVariable, hw, hp]
        have hstored := stored_of_variable hw v
        simp only [Option.isSome_some, if_true, restoreField, hp, hlo, hhi, hpresent, hslice,
          Cursor.new, hstored]
        by_cases hd : v.1.nesting ≤ maxDepth
        · have hread := readTlvValue_writeTlv v hd hv 0 []
          rw [List.append_nil] at hread
          simp only [hhead, hd, true_and, hread, ok_bind]
          exact hih _
        · have hread := readTlvValue_deep v (by omega) hv 0 []
          rw [List.append_nil] at hread
          rw [if_neg fun hs => hd (hhead.mp hs).1, hread, error_bind]

end Adabt.Storage
