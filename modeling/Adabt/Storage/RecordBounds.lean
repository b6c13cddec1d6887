import Adabt.Storage.RecordReader

/-! # Where a record ends

What the header, the layout of the codec and the offsets and counts in the bytes say
of where a record ends. Decoding it and peeking at its fields give the same answer
whatever stands behind. -/

set_option autoImplicit false

namespace Adabt.Storage
open Adabt.Core Adabt.Library

/-! ## The end the format declares -/

namespace Checked
open Cursor.Checked

/-- Past one name with its value. -/
def skipEntries : ℕ → BufferReader Unit
  | 0 => return ()
  | n + 1 => do
    let klen ← varint
    let _ ← take klen.toNat
    let _ ← readTlvValue
    skipEntries n

/-- Past a counted run of named values. -/
def skipBag : BufferReader Unit := do
  let n ← varint
  skipEntries n.toNat

def skipDynamic : BufferReader Unit := do
  let _ ← take headerLen
  skipBag

end Checked

namespace RecordCodec

def fixedAt (c : RecordCodec) : ℕ := headerLen + bitmapLen c.schema.fields.length

def tableAt (c : RecordCodec) : ℕ := c.fixedAt + c.fixedRegionLen.toNat

/-- The end of the header, the bitmap and the slots. -/
def slotsEnd (c : RecordCodec) : ℕ :=
  c.fixedAt + (c.fixed.map fun x => x.offset.toNat + x.width.toNat).foldr max c.fixedRegionLen.toNat

def tableEnd (c : RecordCodec) : ℕ := c.tableAt + 4 * (c.variableWidth.length + 1)

/-- The farthest offset in the table, which is the last of them when they ascend. -/
def farthest (c : RecordCodec) (buf : Bytes) : ℕ :=
  ((List.range (c.variableWidth.length + 1)).map (offsetAt buf c.tableAt)).foldr max 0

def overflowEnd (c : RecordCodec) (buf : Bytes) : ℕ :=
  let start := offsetAt buf c.tableAt c.variableWidth.length
  if buf.getD 1 0 &&& hasOverflow ≠ 0 then start + Checked.skipBag.stopOf (buf.drop start) else 0

/-- A run of named values that cannot be read has no end but that of the buffer. -/
def declaredEnd (c : RecordCodec) (buf : Bytes) : ℕ :=
  match c.schema.mode with
  | .dynamic => Checked.skipDynamic.stopOf buf
  | .fixed => c.slotsEnd
  | .strict | .declared =>
    max c.slotsEnd (max c.tableEnd (max (c.farthest buf) (c.overflowEnd buf)))

end RecordCodec

/-! ## Depth -/

namespace Reader

def Yields {α : Type} (P : α → Prop) (r : Reader α) : Prop :=
  ∀ c a c', r c = .ok (a, c') → P a

variable {α β : Type} {P : α → Prop} {Q : β → Prop}

theorem yields_ok {a : α} (h : P a) : Yields P fun c => .ok (a, c) := fun _ _ _ ha => by
  cases ha
  exact h

theorem yields_error (e : Cursor → Error) : Yields P fun c => .error (e c) :=
  fun _ _ _ ha => by cases ha

theorem Yields.bind {r : Reader α} {k : α × Cursor → Except Error (β × Cursor)} (hr : Yields P r)
    (hk : ∀ a, P a → Yields Q fun c => k (a, c)) : Yields Q fun c => r c >>= k := by
  intro c b c' h
  obtain ⟨⟨a, c₁⟩, ha, hb⟩ := bind_eq_ok.mp h
  exact hk a (hr c a c₁ ha) c₁ b c' hb

theorem yields_any (r : Reader α) : Yields (fun _ => True) r := fun _ _ _ _ => trivial

theorem Yields.seq {r : Reader α} {k : α × Cursor → Except Error (β × Cursor)}
    (hk : ∀ a, Yields Q fun c => k (a, c)) : Yields Q fun c => r c >>= k :=
  (yields_any r).bind fun a _ => hk a

theorem Yields.ite {p : Prop} [Decidable p] {r r' : Reader α} (hr : Yields P r)
    (hr' : Yields P r') : Yields P fun c => if p then r c else r' c := by
  split
  · exact hr
  · exact hr'

theorem yields_items {P : OrdValue → Prop} {read : Reader OrdValue} (hr : Yields P read) (n : ℕ) :
    Yields (fun vs => ∀ v ∈ vs, P v) (readItems read n) := by
  induction n with
  | zero => exact yields_ok fun v hv => by cases hv
  | succ n ih =>
    exact hr.bind fun v hv => ih.bind fun vs hvs =>
      yields_ok (List.forall_mem_cons.mpr ⟨hv, hvs⟩)

theorem yields_entries {P : OrdValue → Prop} {read : Reader OrdValue} (hr : Yields P read) (n : ℕ)
    {m : OrdMap String OrdValue} (hm : ∀ e ∈ m.entries, P e.2) :
    Yields (fun m => ∀ e ∈ m.entries, P e.2) (readEntries read n m) := by
  induction n generalizing m with
  | zero => exact yields_ok hm
  | succ n ih =>
    refine .seq fun klen => .seq fun k => hr.bind fun v hv => ih fun e he => ?_
    rcases OrdMap.mem_insertEntry he with rfl | he
    · exact hv
    · exact hm e he

theorem nestingItems_le {left : ℕ} {vs : List OrdValue} (h : ∀ v ∈ vs, v.1.nesting < left) :
    Value.nestingItems (vs.map Subtype.val) ≤ left := by
  induction vs with
  | nil => exact Nat.zero_le left
  | cons v vs ih =>
    obtain ⟨hv, hvs⟩ := List.forall_mem_cons.mp h
    exact Nat.max_le.mpr ⟨hv, ih hvs⟩

theorem nestingEntries_lt {left : ℕ} {es : List (String × OrdValue)}
    (h : ∀ e ∈ es, e.2.1.nesting < left) :
    Value.nestingEntries (es.map fun e => (e.1, e.2.1)) ≤ left := by
  induction es with
  | nil => exact Nat.zero_le left
  | cons e es ih =>
    obtain ⟨he, hes⟩ := List.forall_mem_cons.mp h
    exact Nat.max_le.mpr ⟨he, ih hes⟩

/-- What is read with so many levels left nests less than that. -/
theorem yields_tlv (left : ℕ) : Yields (fun v => v.1.nesting < left) (readTlvAt left) := by
  induction left with
  | zero => exact yields_error _
  | succ left ih =>
    refine .seq fun t => ?_
    refine .ite (yields_ok (Nat.succ_pos left)) ?_
    refine .ite (.seq fun scale => .seq fun b => yields_ok (Nat.succ_pos left)) ?_
    refine .ite (.seq fun n => yields_ok (Nat.succ_pos left)) ?_
    refine .ite (yields_ok (Nat.succ_pos left)) (.ite (yields_ok (Nat.succ_pos left)) ?_)
    refine .ite (.seq fun n => yields_ok (Nat.succ_pos left)) ?_
    refine .ite (.seq fun n => yields_ok (Nat.succ_pos left)) ?_
    refine .ite (.seq fun n => yields_ok (Nat.succ_pos left)) ?_
    refine .ite (.seq fun n => .seq fun s => yields_ok (Nat.succ_pos left)) ?_
    refine .ite (.seq fun n => .seq fun b => yields_ok (Nat.succ_pos left)) ?_
    refine .ite (.seq fun n => ?_) (.ite (.seq fun n => ?_) (yields_error _))
    · intro c v c' h
      obtain ⟨u, -, h⟩ := bind_eq_ok.mp h
      obtain ⟨⟨items, c₁⟩, hitems, h⟩ := bind_eq_ok.mp h
      cases h
      exact Nat.lt_succ_of_le (nestingItems_le (yields_items ih _ _ _ _ hitems))
    · intro c v c' h
      obtain ⟨u, -, h⟩ := bind_eq_ok.mp h
      obtain ⟨⟨m, c₁⟩, hm, h⟩ := bind_eq_ok.mp h
      cases h
      have hnone : ∀ e ∈ (∅ : OrdMap String OrdValue).entries, e.2.1.nesting < left :=
        fun e he => by cases he
      exact Nat.lt_succ_of_le (nestingEntries_lt (yields_entries ih _ hnone _ _ _ hm))

end Reader

theorem decodeValue_nesting {buf : Bytes} {v : OrdValue} {used : ℕ}
    (h : decodeValue buf = .ok (v, used)) : v.1.nesting ≤ maxDepth := by
  obtain ⟨⟨w, c⟩, hread, h⟩ := bind_eq_ok.mp h
  cases h
  exact Nat.le_of_lt_succ (Reader.yields_tlv _ _ _ _ hread)

theorem ensure_congr {c d : Prop} [Decidable c] [Decidable d] {e : Error} (h : c ↔ d) :
    ensure c e = ensure d e := if_congr h rfl rfl

/-! ## Buffers that agree up to the end -/

section Agreement

variable {buf other : Bytes} {stop : ℕ}

/-- Either they are the same buffer, or both reach the end. -/
theorem agree_cases (h : other.take stop = buf.take stop) :
    other = buf ∨ stop ≤ other.length ∧ stop ≤ buf.length := by
  have hlen := congrArg List.length h
  rw [List.length_take, List.length_take] at hlen
  by_cases hin : stop ≤ buf.length ∧ stop ≤ other.length
  · exact .inr hin.symm
  · refine .inl ?_
    rwa [List.take_of_length_le (by omega), List.take_of_length_le (by omega)] at h

theorem slice_agree (h : other.take stop = buf.take stop) {lo hi : ℕ} (hhi : hi ≤ stop) :
    RecordCodec.slice other lo hi = RecordCodec.slice buf lo hi := by
  have := congrArg (fun l => (l.take hi).drop lo) h
  simpa [RecordCodec.slice, List.take_take, List.drop_take, Nat.min_eq_left hhi] using this

theorem offsetAt_agree (h : other.take stop = buf.take stop) {tableAt k : ℕ}
    (hk : tableAt + 4 * k + 4 ≤ stop) :
    RecordCodec.offsetAt other tableAt k = RecordCodec.offsetAt buf tableAt k := by
  rw [RecordCodec.offsetAt, RecordCodec.offsetAt, slice_agree h hk]

theorem getD_agree (h : other.take stop = buf.take stop) {i : ℕ} (hi : i < stop) (d : UInt8) :
    other.getD i d = buf.getD i d := by
  have := congrArg (·.getD i d) h
  simpa [List.getD_eq_getElem?_getD, List.getElem?_take, hi] using this

theorem header_agree (h : other.take stop = buf.take stop) (hstop : headerLen ≤ stop) :
    RecordHeader.read other = RecordHeader.read buf := by
  rcases agree_cases h with rfl | ⟨hother, hbuf⟩
  · rfl
  have hraw : RecordCodec.slice other 2 10 = RecordCodec.slice buf 2 10 := slice_agree h hstop
  change (other.drop 2).take 8 = (buf.drop 2).take 8 at hraw
  have hversion : other.headD 0 = buf.headD 0 := by
    rw [List.headD_eq_head?_getD, List.headD_eq_head?_getD, List.head?_eq_getElem?,
      List.head?_eq_getElem?]
    exact getD_agree h (Nat.lt_of_lt_of_le (by decide) hstop) 0
  have hflags := getD_agree h (Nat.lt_of_lt_of_le (show 1 < headerLen by decide) hstop) 0
  rw [RecordHeader.read, RecordHeader.read, if_neg (c := other.length < headerLen) (by omega),
    if_neg (c := buf.length < headerLen) (by omega), hraw, hversion, hflags]

theorem readFixedFields_agree (h : other.take stop = buf.take stop) {bitmap : Bytes} {fixedAt : ℕ}
    (hother : stop ≤ other.length) (hbuf : stop ≤ buf.length) (xs : List FixedField)
    (hxs : ∀ x ∈ xs, fixedAt + (x.offset.toNat + x.width.toNat) ≤ stop) (k : ℕ) (rec : Record) :
    RecordCodec.readFixedFields other bitmap fixedAt k xs rec =
      RecordCodec.readFixedFields buf bitmap fixedAt k xs rec := by
  induction xs generalizing k rec with
  | nil => rfl
  | cons x xs ih =>
    obtain ⟨hx, hxs⟩ := List.forall_mem_cons.mp hxs
    rw [RecordCodec.readFixedFields, RecordCodec.readFixedFields]
    dsimp only
    rw [if_neg (c := other.length < _) (by omega), if_neg (c := buf.length < _) (by omega),
      slice_agree h (by omega), ih hxs]
    simp only [ih hxs]

theorem readVarFields_agree (h : other.take stop = buf.take stop) {bitmap : Bytes}
    {tableAt n : ℕ} (htable : tableAt + 4 * (n + 1) ≤ stop)
    (hoffsets : ∀ k ≤ n, RecordCodec.offsetAt buf tableAt k ≤ stop) (xs : List VarField) (k : ℕ)
    (hk : k + xs.length ≤ n) (rec : Record) :
    RecordCodec.readVarFields other bitmap tableAt k xs rec =
      RecordCodec.readVarFields buf bitmap tableAt k xs rec := by
  induction xs generalizing k rec with
  | nil => rfl
  | cons x xs ih =>
    rw [List.length_cons] at hk
    rw [RecordCodec.readVarFields, RecordCodec.readVarFields, offsetAt_agree h (by omega),
      offsetAt_agree h (by omega), slice_agree h (hoffsets (k + 1) (by omega)),
      ih (k + 1) (by omega)]
    simp only [ih (k + 1) (by omega)]

end Agreement

/-! ## Bags -/

namespace Checked
open Cursor.Checked Reading

theorem skipEntries_contained (n : ℕ) : Contained Fault.Corrupted n (skipEntries n) := by
  induction n with
  | zero => exact contained_pure ()
  | succ n ih =>
    have hentry (klen : UInt64) : Contained Fault.Corrupted n (do
        let _ ← take klen.toNat
        let _ ← readTlvValue
        skipEntries n) :=
      ((contained_take klen.toNat).bind fun _ => contained_readTlvValue.bind fun _ => ih).le
        (by omega)
    exact (contained_varint.bind hentry).le (by omega)

/-- A string is read from the bytes that are taken for it. -/
theorem string_tracks (n : ℕ) : Tracks (fun _ _ => True) (string n) (take n) := by
  intro buf pos a stop h
  obtain ⟨b, mid, hb, h⟩ := bind_eq_ok' h
  unfold text at h
  cases hd : decodeUtf8 b with
  | none =>
    rw [hd] at h
    cases h
  | some s =>
    rw [hd] at h
    cases h
    exact ⟨b, hb, trivial⟩

theorem entries_tracks (n : ℕ) (m : OrdMap String OrdValue) :
    Tracks (fun _ _ => True) (readEntries readTlvValue n m) (skipEntries n) := by
  induction n generalizing m with
  | zero => exact tracks_pure trivial
  | succ n ih =>
    exact .same fun klen => (string_tracks klen.toNat).bind fun k _ _ => .same fun v =>
      ih (m.insert k v)

theorem ensureLeft_tracks {α β : Type} {R : α → β → Prop} {n : ℕ} {e : ℕ → Fault}
    {x : BufferReader α} {y : BufferReader β} (h : Tracks R x y) :
    Tracks R (Reading.ensureLeft n e >>= fun _ => x) y := by
  intro buf pos a stop ha
  obtain ⟨u, mid, hu, hx⟩ := bind_eq_ok' ha
  have hmid : mid = pos := by
    rw [Reading.ensureLeft] at hu
    split_ifs at hu
    cases hu
    rfl
  rw [hmid] at hx
  exact h buf pos a stop hx

theorem bag_tracks (what : String) (rec : Record) :
    Tracks (fun _ _ => True) (readBag what rec) skipBag :=
  .same fun n => ensureLeft_tracks (entries_tracks n.toNat rec)

theorem dynamic_tracks : Tracks (fun _ _ => True) readDynamic skipDynamic :=
  .same fun _ => bag_tracks "record" ∅

theorem contained_readBag (what : String) (rec : Record) :
    Contained Fault.Corrupted 0 (readBag what rec) :=
  contained_varint.seq fun n => Contained.le (Contained.ensureLeft (fun _ => Fault.corrupted _)
    (contained_readEntries contained_readTlvValue n.toNat rec) (Nat.le_refl _)) (Nat.zero_le _)

theorem contained_readDynamic : Contained Fault.Corrupted headerLen readDynamic :=
  (contained_take headerLen).bind_first fun _ => contained_readBag "record" ∅

theorem contained_peekNamed (field : String) (n : ℕ) :
    Contained Fault.Corrupted 0 (peekNamed field n) := by
  induction n with
  | zero => exact contained_pure none
  | succ n ih =>
    exact contained_varint.seq fun klen => (contained_take klen.toNat).bind_first (fun raw =>
      contained_readTlvValue.seq fun v => .ite (contained_pure _) ih) |>.le (Nat.zero_le _)

theorem contained_peekDynamic (field : String) : Contained Fault.Corrupted 0 (peekDynamic field) :=
  (contained_take headerLen).seq fun _ => contained_varint.seq fun _ => contained_peekNamed field _

/-- The walk to one name goes no farther than the walk past all of them. -/
theorem peekNamed_within (field : String) (n : ℕ) {buf : Bytes} {pos stop stop' : ℕ}
    {v : Option OrdValue} (hpos : pos ≤ buf.length) (h : peekNamed field n buf pos = .ok v stop)
    (hskip : skipEntries n buf pos = .ok () stop') : stop ≤ stop' := by
  induction n generalizing pos with
  | zero =>
    cases h
    cases hskip
    exact Nat.le_refl _
  | succ n ih =>
    obtain ⟨klen, p₁, hklen, h⟩ := bind_eq_ok' h
    obtain ⟨raw, p₂, hraw, h⟩ := bind_eq_ok' h
    obtain ⟨w, p₃, hw, h⟩ := bind_eq_ok' h
    obtain ⟨klen', q₁, hklen', hskip⟩ := bind_eq_ok' hskip
    obtain ⟨raw', q₂, hraw', hskip⟩ := bind_eq_ok' hskip
    obtain ⟨w', q₃, hw', hskip⟩ := bind_eq_ok' hskip
    cases hklen.symm.trans hklen'
    cases hraw.symm.trans hraw'
    cases hw.symm.trans hw'
    obtain ⟨-, hp₁, -⟩ := (contained_varint buf pos hpos).of_ok hklen
    obtain ⟨-, hp₂, -⟩ := (contained_take klen.toNat buf p₁ hp₁).of_ok hraw
    obtain ⟨-, hp₃, -⟩ := (contained_readTlvValue buf p₂ hp₂).of_ok hw
    by_cases hname : raw = utf8 field
    · have hstop : stop = p₃ := by
        rw [if_pos hname] at h
        cases h
        rfl
      have hmove := ((skipEntries_contained n buf p₃ hp₃).of_ok hskip).1
      omega
    · rw [if_neg hname] at h
      exact ih hp₃ h hskip

theorem peekDynamic_within (field : String) {buf : Bytes} {v : Option OrdValue} {stop : ℕ}
    (h : peekDynamic field buf 0 = .ok v stop) : stop ≤ skipDynamic.stopOf buf := by
  obtain ⟨-, hin, -⟩ := (contained_peekDynamic field buf 0 (Nat.zero_le _)).of_ok h
  cases hskip : skipDynamic buf 0 with
  | error e p =>
    rw [stopOf, hskip]
    exact hin
  | ok u stop' =>
    rw [stopOf_ok hskip]
    obtain ⟨b, p₁, hb, h⟩ := bind_eq_ok' h
    obtain ⟨n, p₂, hn, h⟩ := bind_eq_ok' h
    obtain ⟨b', q₁, hb', hskip⟩ := bind_eq_ok' hskip
    obtain ⟨n', q₂, hn', hskip⟩ := bind_eq_ok' hskip
    cases hb.symm.trans hb'
    cases hn.symm.trans hn'
    obtain ⟨-, hp₁, -⟩ := (contained_take headerLen buf 0 (Nat.zero_le _)).of_ok hb
    obtain ⟨-, hp₂, -⟩ := (contained_varint buf p₁ hp₁).of_ok hn
    exact peekNamed_within field n.toNat hp₂ h hskip

/-- A reader that stops before the buffers differ answers the same over both. -/
theorem runOn_agree {α : Type} {x : BufferReader α} {k stop : ℕ} (hx : Contained Fault.Corrupted k x)
    {buf other : Bytes} (h : other.take stop = buf.take stop)
    (hstop : ∀ a mid, x buf 0 = .ok a mid → mid ≤ stop) {a : α} (ha : x.runOn buf = .ok a) :
    x.runOn other = .ok a := by
  rcases agree_cases h with rfl | ⟨hother, -⟩
  · exact ha
  obtain ⟨mid, hmid⟩ := runOn_eq_ok ha
  have hle := hstop a mid hmid
  obtain ⟨-, -, hsettled⟩ := (hx buf 0 (Nat.zero_le _)).of_ok hmid
  exact runOn_ok (hsettled other (by omega) (take_mono hle h))

theorem stop_of_tracks {α : Type} {x : BufferReader α} {y : BufferReader Unit}
    (h : Tracks (fun _ _ => True) x y) {buf : Bytes} {a : α} {mid : ℕ} (hx : x buf 0 = .ok a mid) :
    mid = y.stopOf buf := by
  obtain ⟨u, hu, -⟩ := h buf 0 a mid hx
  rw [stopOf_ok hu]

end Checked

/-! ## Records whose bytes agree up to their end -/

namespace RecordCodec
open Checked Reading

variable {c : RecordCodec} {buf other : Bytes} {stop : ℕ}

theorem le_foldr_max {n : ℕ} {ns : List ℕ} {start : ℕ} (h : n ∈ ns) : n ≤ ns.foldr max start := by
  induction ns with
  | nil => cases h
  | cons m ms ih =>
    rw [List.foldr_cons]
    rcases List.mem_cons.mp h with rfl | h
    · exact Nat.le_max_left _ _
    · exact Nat.le_trans (ih h) (Nat.le_max_right _ _)

theorem offset_le_farthest {k : ℕ} (h : k ≤ c.variableWidth.length) :
    offsetAt buf c.tableAt k ≤ c.farthest buf :=
  le_foldr_max (List.mem_map.mpr ⟨k, List.mem_range.mpr (by omega), rfl⟩)

theorem slot_le_slotsEnd {x : FixedField} (h : x ∈ c.fixed) :
    c.fixedAt + (x.offset.toNat + x.width.toNat) ≤ c.slotsEnd := by
  have hmem := List.mem_map_of_mem (f := fun x => x.offset.toNat + x.width.toNat) h
  exact Nat.add_le_add_left (le_foldr_max hmem) _

/-- What a record of a layout with a table has up to its end. -/
structure TableWithin (c : RecordCodec) (buf : Bytes) (stop : ℕ) : Prop where
  slots : c.slotsEnd ≤ stop
  table : c.tableEnd ≤ stop
  offsets : c.farthest buf ≤ stop
  overflow : c.overflowEnd buf ≤ stop

theorem tableWithin (hdynamic : c.schema.mode ≠ .dynamic) (hfixed : c.schema.mode ≠ .fixed) :
    TableWithin c buf (c.declaredEnd buf) := by
  have hend : c.declaredEnd buf =
      max c.slotsEnd (max c.tableEnd (max (c.farthest buf) (c.overflowEnd buf))) := by
    unfold declaredEnd
    cases hm : c.schema.mode with
    | dynamic => exact absurd hm hdynamic
    | fixed => exact absurd hm hfixed
    | strict => rfl
    | declared => rfl
  rw [hend]
  constructor <;> omega

theorem slotsEnd_le (hdynamic : c.schema.mode ≠ .dynamic) : c.slotsEnd ≤ c.declaredEnd buf := by
  by_cases hfixed : c.schema.mode = .fixed
  · unfold declaredEnd
    rw [hfixed]
  · exact (tableWithin hdynamic hfixed).slots

theorem readTail_agree (hw : TableWithin c buf stop) (h : other.take stop = buf.take stop)
    (hother : stop ≤ other.length) {bitmap : Bytes} {rec r : Record}
    (hr : c.readTail buf bitmap (buf.getD 1 0) c.tableAt rec = .ok r) :
    c.readTail other bitmap (buf.getD 1 0) c.tableAt rec = .ok r := by
  have htable : c.tableAt + 4 * (c.variableWidth.length + 1) ≤ stop := hw.table
  have hoffset : ∀ k ≤ c.variableWidth.length,
      offsetAt other c.tableAt k = offsetAt buf c.tableAt k := fun k hk =>
    offsetAt_agree h (by omega)
  have hmap : (List.range' 1 c.variableWidth.length).map (offsetAt other c.tableAt) =
      (List.range' 1 c.variableWidth.length).map (offsetAt buf c.tableAt) := by
    refine List.map_congr_left fun k hk => hoffset k ?_
    have := List.mem_range'_1.mp hk
    omega
  rw [readTail] at hr ⊢
  obtain ⟨u, -, hr⟩ := bind_eq_ok.mp hr
  obtain ⟨last, hlast, hr⟩ := bind_eq_ok.mp hr
  obtain ⟨u, -, hr⟩ := bind_eq_ok.mp hr
  obtain ⟨rec', hrec, hr⟩ := bind_eq_ok.mp hr
  have hend := (checkOffsets_ascend hlast).1
  rw [Nat.zero_add] at hend
  have hin : last ≤ stop := hend ▸ Nat.le_trans (offset_le_farthest (Nat.le_refl _)) hw.offsets
  refine bind_eq_ok.mpr ⟨(), ensure_eq_ok.mpr (Nat.le_trans htable hother), ?_⟩
  rw [hoffset 0 (Nat.zero_le _), hmap]
  refine bind_eq_ok.mpr ⟨last, hlast, ?_⟩
  refine bind_eq_ok.mpr ⟨(), ensure_eq_ok.mpr (Nat.le_trans hin hother), ?_⟩
  rw [readVarFields_agree h htable (fun k hk => Nat.le_trans (offset_le_farthest hk) hw.offsets) _ 0
    (by omega)]
  refine bind_eq_ok.mpr ⟨rec', hrec, ?_⟩
  by_cases hflag : buf.getD 1 0 &&& hasOverflow ≠ 0
  · rw [if_pos hflag] at hr ⊢
    have hover := hw.overflow
    rw [overflowEnd, hend, if_pos hflag] at hover
    have hdrop : (other.drop last).take (stop - last) = (buf.drop last).take (stop - last) := by
      have := congrArg (List.drop last) h
      rwa [List.drop_take, List.drop_take] at this
    have hread := (answers_readBag "overflow" rec').runOn
    refine (hread (other.drop last)).ok_iff.mp (runOn_agree (contained_readBag "overflow" rec') hdrop
      (fun a mid hmid => ?_) ((hread (buf.drop last)).ok_iff.mpr hr))
    rw [stop_of_tracks (bag_tracks "overflow" rec') hmid]
    omega
  · rw [if_neg hflag] at hr ⊢
    exact hr

theorem header_flags {buf : Bytes} {header : RecordHeader} (h : RecordHeader.read buf = .ok header) :
    header.flags = buf.getD 1 0 := by
  rw [RecordHeader.read] at h
  dsimp only at h
  split_ifs at h
  cases h
  rfl

theorem decode_agree (hdynamic : c.schema.mode ≠ .dynamic)
    (h : other.take (c.declaredEnd buf) = buf.take (c.declaredEnd buf))
    {a : RecordHeader × Record} (ha : c.decodeWithHeader buf = .ok a) :
    c.decodeWithHeader other = .ok a := by
  rcases agree_cases h with rfl | ⟨hother, hbuf⟩
  · exact ha
  have hslots : c.slotsEnd ≤ c.declaredEnd buf := slotsEnd_le hdynamic
  have hfixedAt : c.fixedAt ≤ c.slotsEnd := Nat.le_add_right _ _
  have hheader : headerLen ≤ c.fixedAt := Nat.le_add_right _ _
  rw [decodeWithHeader] at ha ⊢
  obtain ⟨header, hread, ha⟩ := bind_eq_ok.mp ha
  refine bind_eq_ok.mpr ⟨header, (header_agree h (by omega)).trans hread, ?_⟩
  rw [if_neg hdynamic] at ha ⊢
  obtain ⟨u, -, ha⟩ := bind_eq_ok.mp ha
  obtain ⟨rec, hrec, ha⟩ := bind_eq_ok.mp ha
  refine bind_eq_ok.mpr ⟨(), ensure_eq_ok.mpr (Nat.le_trans hfixedAt (by omega)), ?_⟩
  have hbitmap : slice other headerLen c.fixedAt = slice buf headerLen c.fixedAt :=
    slice_agree h (Nat.le_trans hfixedAt hslots)
  have hfields : readFixedFields other (slice other headerLen c.fixedAt) c.fixedAt 0 c.fixed ∅ =
      .ok rec := by
    rw [hbitmap, readFixedFields_agree h hother hbuf _ fun x hx =>
      Nat.le_trans (slot_le_slotsEnd hx) hslots]
    exact hrec
  refine bind_eq_ok.mpr ⟨rec, hfields, ?_⟩
  by_cases hfixed : c.schema.mode = .fixed
  · rw [if_pos hfixed] at ha ⊢
    exact ha
  · rw [if_neg hfixed] at ha ⊢
    obtain ⟨r, hr, ha⟩ := bind_eq_ok.mp ha
    rw [header_flags hread] at hr
    have htail := readTail_agree (tableWithin hdynamic hfixed) h hother hr
    refine bind_eq_ok.mpr ⟨r, ?_, ha⟩
    rw [header_flags hread]
    change c.readTail other (slice other headerLen c.fixedAt) _ c.tableAt rec = _
    rw [hbitmap]
    exact htail

theorem peekSlot_agree (h : other.take stop = buf.take stop) (hother : stop ≤ other.length)
    (hbuf : stop ≤ buf.length) {i : ℕ} {f : FieldDef} {w : UInt32}
    (hslot : c.fixedAt + ((c.fixedOffset i).toNat + w.toNat) ≤ stop) :
    c.peekSlot other c.fixedAt i f w = c.peekSlot buf c.fixedAt i f w := by
  have hslice : slice other (c.fixedAt + (c.fixedOffset i).toNat)
      (c.fixedAt + (c.fixedOffset i).toNat + w.toNat) =
        slice buf (c.fixedAt + (c.fixedOffset i).toNat)
          (c.fixedAt + (c.fixedOffset i).toNat + w.toNat) := slice_agree h (by omega)
  rw [peekSlot, peekSlot, hslice, ensure_congr (d := c.fixedAt + (c.fixedOffset i).toNat + w.toNat ≤
    buf.length) (by omega)]

theorem peekVariable_agree (hw : TableWithin c buf stop) (h : other.take stop = buf.take stop)
    (hother : stop ≤ other.length) (hbuf : stop ≤ buf.length) {i : ℕ}
    (hi : c.variableWidth.findIdx (·.index = i) < c.variableWidth.length) :
    c.peekVariable other c.fixedAt i = c.peekVariable buf c.fixedAt i := by
  have htable : c.tableAt + 4 * (c.variableWidth.length + 1) ≤ stop := hw.table
  have hlo : offsetAt other c.tableAt (c.variableWidth.findIdx (·.index = i)) =
      offsetAt buf c.tableAt (c.variableWidth.findIdx (·.index = i)) := offsetAt_agree h (by omega)
  have hhi : offsetAt other c.tableAt (c.variableWidth.findIdx (·.index = i) + 1) =
      offsetAt buf c.tableAt (c.variableWidth.findIdx (·.index = i) + 1) := offsetAt_agree h (by omega)
  have hin : offsetAt buf c.tableAt (c.variableWidth.findIdx (·.index = i) + 1) ≤ stop :=
    Nat.le_trans (offset_le_farthest (by omega)) hw.offsets
  have hslice : RecordCodec.slice other
        (offsetAt buf c.tableAt (c.variableWidth.findIdx (·.index = i)))
        (offsetAt buf c.tableAt (c.variableWidth.findIdx (·.index = i) + 1)) =
      RecordCodec.slice buf (offsetAt buf c.tableAt (c.variableWidth.findIdx (·.index = i)))
        (offsetAt buf c.tableAt (c.variableWidth.findIdx (·.index = i) + 1)) := slice_agree h hin
  rw [peekVariable, peekVariable]
  change (ensure (c.tableEnd ≤ _) _ >>= fun _ => ensure (offsetAt other c.tableAt _ ≤
    offsetAt other c.tableAt _ ∧ offsetAt other c.tableAt _ ≤ _) _ >>= fun _ => readTlvValue 0
      (.new (slice other (offsetAt other c.tableAt _) (offsetAt other c.tableAt _))) >>= _) = _
  rw [hlo, hhi, hslice, ensure_congr (c := c.tableEnd ≤ other.length) (d := c.tableEnd ≤ buf.length)
    (by rw [tableEnd]; omega)]
  refine bind_congr fun _ => ?_
  rw [ensure_congr (d := offsetAt buf c.tableAt (c.variableWidth.findIdx (·.index = i)) ≤
    offsetAt buf c.tableAt (c.variableWidth.findIdx (·.index = i) + 1) ∧
      offsetAt buf c.tableAt (c.variableWidth.findIdx (·.index = i) + 1) ≤ buf.length) (by omega)]
  rfl

end RecordCodec

/-! ### Where a field stands in the layout -/

theorem fixedFields_width {i : ℕ} {off : UInt32} {fields : List FieldDef} {x : FixedField}
    (h : x ∈ fixedFields i off fields) : x.field.ty.fixedWidth = some x.width := by
  induction fields generalizing i off with
  | nil => cases h
  | cons f rest ih =>
    rw [fixedFields] at h
    cases hw : f.ty.fixedWidth with
    | none =>
      rw [hw] at h
      exact ih h
    | some w =>
      rw [hw] at h
      rcases List.mem_cons.mp h with rfl | h
      · exact hw
      · exact ih h

theorem fixedFields_found (i : ℕ) (off : UInt32) {j : ℕ} {fields : List FieldDef} {f : FieldDef}
    {w : UInt32} (hf : fields[j]? = some f) (hw : f.ty.fixedWidth = some w) :
    ∃ x ∈ fixedFields i off fields, x.index = i + j := by
  induction fields generalizing i j off with
  | nil => cases hf
  | cons g rest ih =>
    rw [fixedFields]
    cases j with
    | zero =>
      cases hf
      rw [hw]
      exact ⟨_, List.mem_cons_self, rfl⟩
    | succ j =>
      split
      · obtain ⟨x, hx, hxi⟩ := ih (i + 1) (off + _) hf
        exact ⟨x, List.mem_cons_of_mem _ hx, by omega⟩
      · obtain ⟨x, hx, hxi⟩ := ih (i + 1) off hf
        exact ⟨x, hx, by omega⟩

namespace RecordCodec
open Checked Reading

variable {s : Schema} {buf other : Bytes}

theorem fixedOffset_found {i : ℕ} {f : FieldDef} {w : UInt32} (hf : s.fields[i]? = some f)
    (hw : f.ty.fixedWidth = some w) :
    ∃ x ∈ (RecordCodec.new s).fixed, (RecordCodec.new s).fixedOffset i = x.offset ∧ x.width = w := by
  obtain ⟨y, hy, hyi⟩ := fixedFields_found 0 0 hf hw
  rw [Nat.zero_add] at hyi
  cases hfind : (RecordCodec.new s).fixed.find? (·.index = i) with
  | none => exact absurd (decide_eq_true hyi) (List.find?_eq_none.mp hfind y hy)
  | some x =>
    have hx := List.mem_of_find?_eq_some hfind
    have hxi : x.index = i := by simpa using List.find?_some hfind
    obtain ⟨j, hj, hfield⟩ := fixedFields_index 0 0 s.fields x hx
    rw [Nat.zero_add] at hj
    rw [← hj, hxi, hf] at hfield
    have hwidth := fixedFields_width hx
    rw [← Option.some.inj hfield, hw] at hwidth
    exact ⟨x, hx, by rw [fixedOffset, hfind]; rfl, (Option.some.inj hwidth).symm⟩

theorem peek_agree (hdynamic : (RecordCodec.new s).schema.mode ≠ .dynamic)
    (h : other.take ((RecordCodec.new s).declaredEnd buf) =
      buf.take ((RecordCodec.new s).declaredEnd buf)) (field : String) :
    (RecordCodec.new s).peekField other field = (RecordCodec.new s).peekField buf field := by
  rcases agree_cases h with rfl | ⟨hother, hbuf⟩
  · rfl
  have hslots : (RecordCodec.new s).slotsEnd ≤ (RecordCodec.new s).declaredEnd buf :=
    slotsEnd_le hdynamic
  have hfixedAt : (RecordCodec.new s).fixedAt ≤ (RecordCodec.new s).slotsEnd := Nat.le_add_right _ _
  rw [peekField, peekField, if_neg hdynamic, if_neg hdynamic]
  cases hfound : position (RecordCodec.new s).schema.fields field with
  | none => rfl
  | some p =>
    obtain ⟨f, i⟩ := p
    have hfi : s.fields[i]? = some f := List.mk_mem_zipIdx_iff_getElem?.mp
      (List.mem_of_find?_eq_some hfound)
    have hbitmap : RecordCodec.slice other headerLen (RecordCodec.new s).fixedAt =
        RecordCodec.slice buf headerLen (RecordCodec.new s).fixedAt :=
      slice_agree h (Nat.le_trans hfixedAt hslots)
    change (ensure ((RecordCodec.new s).fixedAt ≤ _) _ >>= fun _ => if bitGet (slice other headerLen
      (RecordCodec.new s).fixedAt) i then _ else _) = _
    rw [hbitmap, ensure_congr (d := (RecordCodec.new s).fixedAt ≤ buf.length) (by omega)]
    refine bind_congr fun _ => if_congr Iff.rfl ?_ rfl
    cases hw : f.ty.fixedWidth with
    | some w =>
      obtain ⟨x, hx, hoffset, hwidth⟩ := fixedOffset_found hfi hw
      refine peekSlot_agree h hother hbuf (Nat.le_trans ?_ hslots)
      rw [hoffset, ← hwidth]
      exact slot_le_slotsEnd hx
    | none =>
      have hfixed : s.mode ≠ .fixed := fun hm =>
        (s.fieldsValid.2 f (List.mem_of_getElem? hfi)).width hm hw
      obtain ⟨x, hx, hxi⟩ := varFields_found (i := 0) hfi hw
      rw [Nat.zero_add] at hxi
      exact peekVariable_agree (tableWithin hdynamic hfixed) h hother hbuf
        (List.findIdx_lt_length_of_exists ⟨x, hx, decide_eq_true hxi⟩)

end RecordCodec

/-! ## Every buffer -/

/-- The decoder returns a value or an error of its own, and its value is that of every
buffer with the same bytes up to the end. -/
structure Decodes {α : Type} (decode : Bytes → Except Fault α) (buf : Bytes) (stop : ℕ) : Prop where
  returns : (∃ a, decode buf = .ok a) ∨ ∃ e, decode buf = .error (.error e)
  rests : ∀ a, decode buf = .ok a → ∀ other : Bytes, other.length < 2 ^ 63 →
    other.take stop = buf.take stop → decode other = .ok a

namespace Checked
open Cursor.Checked Reading

theorem returns_of_lifts {α : Type} {old : Except Error α} {new : Except Fault α}
    (h : LiftsFault old new) : (∃ a, new = .ok a) ∨ ∃ e, new = .error (.error e) := by
  subst h
  cases old with
  | ok a => exact .inl ⟨a, rfl⟩
  | error e => exact .inr ⟨e, rfl⟩

variable {s : Schema} {buf other : Bytes}

theorem header_decodes (buf : Bytes) : Decodes RecordHeader.readChecked buf headerLen where
  returns := returns_of_lifts (RecordHeader.readChecked_lifts buf)
  rests := fun header h other _ hagree => by
    have hold := (RecordHeader.readChecked_lifts buf).ok_iff.mp h
    rw [← header_agree hagree (Nat.le_refl _)] at hold
    exact (RecordHeader.readChecked_lifts other).ok_iff.mpr hold

theorem value_decodes (buf : Bytes) : Decodes decodeValue buf (readTlvValue.stopOf buf) where
  returns := returns_of_lifts (decodeValue_eq buf)
  rests := fun a h other _ hagree => by
    rcases agree_cases hagree with rfl | ⟨hother, -⟩
    · exact h
    obtain ⟨v, used⟩ := a
    have hold := Lifts.ok_iff (decodeValue_eq buf) |>.mp h
    rw [stopOf_ok (decodeValue_stop hold)] at hagree hother
    exact Lifts.ok_iff (decodeValue_eq other) |>.mpr (decodeValue_settled hold hother hagree)

theorem declaredEnd_dynamic (hdynamic : s.mode = .dynamic) :
    (RecordCodec.new s).declaredEnd buf = skipDynamic.stopOf buf := by
  unfold RecordCodec.declaredEnd
  rw [show (RecordCodec.new s).schema.mode = .dynamic from hdynamic]

theorem dynamic_rests (hdynamic : s.mode = .dynamic) {a : RecordHeader × Record}
    (h : decodeWithHeader (.new s) buf = .ok a)
    (hagree : other.take ((RecordCodec.new s).declaredEnd buf) =
      buf.take ((RecordCodec.new s).declaredEnd buf)) :
    decodeWithHeader (.new s) other = .ok a := by
  have hmode : (RecordCodec.new s).schema.mode = .dynamic := hdynamic
  rw [declaredEnd_dynamic hdynamic] at hagree
  obtain ⟨header, hheader, h⟩ := bind_eq_ok.mp h
  rw [if_pos hmode] at h
  obtain ⟨rec, hrec, h⟩ := bind_eq_ok.mp h
  have hstops (a : Record) (mid : ℕ) (hmid : readDynamic buf 0 = .ok a mid) :
      mid ≤ skipDynamic.stopOf buf := (stop_of_tracks dynamic_tracks hmid).le
  obtain ⟨mid, hmid⟩ := runOn_eq_ok hrec
  have hend : headerLen ≤ skipDynamic.stopOf buf := by
    have hmove := ((contained_readDynamic buf 0 (Nat.zero_le _)).of_ok hmid).1
    have := hstops rec mid hmid
    omega
  have hold := (RecordHeader.readChecked_lifts buf).ok_iff.mp hheader
  rw [← header_agree hagree hend] at hold
  refine bind_eq_ok.mpr ⟨header, (RecordHeader.readChecked_lifts other).ok_iff.mpr hold, ?_⟩
  rw [if_pos hmode]
  exact bind_eq_ok.mpr ⟨rec, runOn_agree contained_readDynamic hagree hstops hrec, h⟩

theorem record_decodes (h : InMemory s buf) :
    Decodes (decodeWithHeader (.new s)) buf ((RecordCodec.new s).declaredEnd buf) where
  returns := returns_of_lifts (decodeWithHeader_lifts h)
  rests := fun a ha other hother hagree => by
    by_cases hdynamic : s.mode = .dynamic
    · exact dynamic_rests hdynamic ha hagree
    · have hold := (decodeWithHeader_lifts h).ok_iff.mp ha
      exact (decodeWithHeader_lifts ⟨hother, h.fields⟩).ok_iff.mpr
        (RecordCodec.decode_agree hdynamic hagree hold)

theorem field_decodes (h : InMemory s buf) (field : String) :
    Decodes (peekField (.new s) · field) buf ((RecordCodec.new s).declaredEnd buf) where
  returns := returns_of_lifts (peekField_lifts h field)
  rests := fun v hv other hother hagree => by
    by_cases hdynamic : s.mode = .dynamic
    · rw [declaredEnd_dynamic hdynamic] at hagree
      have hrun (b : Bytes) : peekField (.new s) b field = (peekDynamic field).runOn b := if_pos hdynamic
      rw [hrun] at hv ⊢
      exact runOn_agree (contained_peekDynamic field) hagree (fun _ _ => peekDynamic_within field) hv
    · have hold := (peekField_lifts h field).ok_iff.mp hv
      rw [← RecordCodec.peek_agree hdynamic hagree] at hold
      exact (peekField_lifts ⟨hother, h.fields⟩ field).ok_iff.mpr hold

theorem fields_decode (h : InMemory s buf) (fields : List String) :
    Decodes (peekFields (.new s) · fields) buf ((RecordCodec.new s).declaredEnd buf) where
  returns := returns_of_lifts (peekInto_lifts h fields ∅)
  rests := fun out hout other hother hagree => by
    have hinto (start : Record) (hstart : peekInto (.new s) buf fields start = .ok out) :
        peekInto (.new s) other fields start = .ok out := by
      clear hout
      induction fields generalizing start with
      | nil => exact hstart
      | cons f rest ih =>
        obtain ⟨v, hv, hrest⟩ := bind_eq_ok.mp hstart
        refine bind_eq_ok.mpr ⟨v, (field_decodes h f).rests v hv other hother hagree, ?_⟩
        cases v with
        | some v => exact ih _ hrest
        | none => exact ih _ hrest
    exact hinto ∅ hout

/-- Whatever the bytes, the decoders end in a value or in an error, no value is read
deeper than the limit, and no answer rests on what stands behind the record. -/
theorem decoders_total (h : InMemory s buf) :
    Decodes RecordHeader.readChecked buf headerLen ∧
      Decodes decodeValue buf (readTlvValue.stopOf buf) ∧
      (∀ v used, decodeValue buf = .ok (v, used) →
        used = readTlvValue.stopOf buf ∧ used ≤ buf.length ∧ v.1.nesting ≤ maxDepth) ∧
      Decodes (decodeWithHeader (.new s)) buf ((RecordCodec.new s).declaredEnd buf) ∧
      (∀ field, Decodes (peekField (.new s) · field) buf ((RecordCodec.new s).declaredEnd buf)) ∧
      ∀ fields, Decodes (peekFields (.new s) · fields) buf ((RecordCodec.new s).declaredEnd buf) := by
  refine ⟨header_decodes buf, value_decodes buf, fun v used hv => ?_, record_decodes h,
    field_decodes h, fields_decode h⟩
  have hold := Lifts.ok_iff (decodeValue_eq buf) |>.mp hv
  have hstop := decodeValue_stop hold
  obtain ⟨-, hin, -⟩ := (contained_readTlvValue buf 0 (Nat.zero_le _)).of_ok hstop
  exact ⟨(stopOf_ok hstop).symm, hin, decodeValue_nesting hold⟩

end Checked

def oneField : Schema := ⟨.strict, [⟨"a", .any, false⟩], rfl⟩

def sevenRecord : Bytes := [1, 0, 0, 0, 0, 0, 0, 0, 0, 0, 1, 19, 0, 0, 0, 21, 0, 0, 0, 3, 14]

/-- What stands behind a record of one field is not looked at. -/
theorem Checked.seven_and_more :
    peekField (.new oneField) (sevenRecord ++ [3, 16]) "a" = .ok (some ⟨.i64 7, trivial⟩) := by
  have hmem : InMemory oneField sevenRecord := ⟨by decide, by decide⟩
  have hread : peekField (.new oneField) sevenRecord "a" = .ok (some ⟨.i64 7, trivial⟩) := rfl
  exact ((Checked.decoders_total hmem).2.2.2.2.1 "a").rests _ hread _ (by decide) (by decide +kernel)

end Adabt.Storage
