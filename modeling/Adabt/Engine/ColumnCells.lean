import Adabt.Engine.Column
import Adabt.Library.Packed
import Adabt.Storage.TlvRoundTrip

/-! # What a column holds

A column shows a list of cells: reading a row gives its cell, and what is pushed
is one more cell. A delta column shows the integers its offsets encode. -/

set_option autoImplicit false

namespace Adabt.Engine
open Adabt.Core Adabt.Library Adabt.Storage

/-! ## Reading a varint -/

theorem or_group_ofNat (result payload shift : ℕ) (h : shift < 64) (b : UInt8)
    (hb : b.toNat % 128 = payload) :
    UInt64.ofNat result ||| ((b &&& 0x7f).toUInt64 <<< UInt64.ofNat shift) =
      UInt64.ofNat (result ||| (payload <<< shift)) := by
  have hlow : (b &&& 0x7f).toNat = b.toNat % 128 := by
    rw [UInt8.toNat_and, show (0x7f : UInt8).toNat = 2 ^ 7 - 1 from rfl,
      Nat.and_two_pow_sub_one_eq_mod]
  apply UInt64.toNat_inj.mp
  rw [UInt64.toNat_or, UInt64.toNat_shiftLeft, UInt8.toNat_toUInt64, hlow, hb]
  simp only [UInt64.toNat_ofNat']
  rw [Nat.or_mod_two_pow, Nat.mod_eq_of_lt (show shift < 2 ^ 64 by omega), Nat.mod_eq_of_lt h]

theorem last_byte (b : UInt8) : (b &&& 0x80 = 0) ↔ b.toNat / 128 = 0 := by
  have hall : ∀ i : Fin 256, (UInt8.ofNat i.val &&& 0x80 = 0) ↔ i.val / 128 = 0 := by
    decide +kernel
  simpa using hall ⟨b.toNat, b.toNat_lt⟩

/-- What the checked reader accepts, the unchecked one reads alike. -/
theorem readVarintLoop_of_readLoop {i shift result n : ℕ} {v : UInt64} {buf : Bytes}
    (h : Varint.readLoop i shift result buf = .ok (v, n)) :
    readVarintLoop (UInt64.ofNat result) (UInt64.ofNat shift) i buf = (v, n) := by
  induction buf generalizing i shift result with
  | nil => cases h
  | cons b rest ih =>
    simp only [Varint.readLoop] at h
    split_ifs at h with hi hover hlast
    · obtain ⟨rfl, rfl⟩ := Prod.mk.inj (Except.ok.inj h)
      rw [readVarintLoop, or_group_ofNat _ _ _ (by omega) b rfl, if_pos ((last_byte b).mpr hlast)]
    · have hrest := ih h
      rw [readVarintLoop, or_group_ofNat _ _ _ (by omega) b rfl,
        if_neg fun hb => hlast ((last_byte b).mp hb)]
      rwa [show UInt64.ofNat shift + 7 = UInt64.ofNat (shift + 7) by
        rw [UInt64.ofNat_add]; rfl]

theorem readVarint_writeVarint (v : UInt64) (rest : Bytes) :
    readVarint (writeVarint v ++ rest) = (v, (writeVarint v).length) :=
  readVarintLoop_of_readLoop (Varint.readU64_writeU64 v rest)

theorem writeVarint_length_le (v : UInt64) : (writeVarint v).length ≤ 10 := by
  have hloop : ∀ fuel n, (Varint.writeLoop fuel n).length ≤ fuel := by
    intro fuel
    induction fuel with
    | zero => intro n; rfl
    | succ fuel ih =>
      intro n
      rw [Varint.writeLoop]
      split_ifs
      · simp
      · simpa using ih (n / 128)
  exact hloop 10 v.toNat

/-- Only zero is written as a zero byte. -/
theorem writeVarint_head {v : UInt64} (h : v ≠ 0) :
    ∃ b rest, writeVarint v = b :: rest ∧ b ≠ 0 := by
  have hv : v.toNat ≠ 0 := fun h0 => h (UInt64.toNat_inj.mp h0)
  rw [writeVarint, Varint.writeU64, Varint.writeLoop]
  split_ifs with hq
  · refine ⟨_, _, rfl, fun hb => ?_⟩
    have := congrArg UInt8.toNat hb
    rw [UInt8.toNat_ofNat', UInt8.toNat_zero] at this
    omega
  · refine ⟨_, _, rfl, fun hb => ?_⟩
    have := congrArg UInt8.toNat hb
    rw [UInt8.toNat_ofNat', UInt8.toNat_zero] at this
    omega

/-! ## Offsets -/

/-- Integers no smaller than the first and less than half the range above it. -/
def Ahead (first n : Int64) : Prop := n.toInt - first.toInt < 2 ^ 63

instance (first n : Int64) : Decidable (Ahead first n) := inferInstanceAs (Decidable (_ < _))

theorem Ahead.ne {first n : Int64} (h : Ahead first n) : n.toInt - first.toInt ≠ 2 ^ 63 :=
  ne_of_lt h

theorem offset_ne_zero {first n : Int64} (hle : first ≤ n)
    (h : n.toInt - first.toInt ≠ 2 ^ 63) : zigzag (n - first) + 1 ≠ 0 := by
  intro hz
  have hmax : zigzag (n - first) = 0 - 1 := by rw [← hz, UInt64.add_sub_cancel]
  have hback := unzigzag_zigzag (n - first)
  rw [hmax] at hback
  have hmin : (n - first).toInt = -2 ^ 63 := by rw [← hback]; decide
  have hle' := Int64.le_iff_toInt_le.mp hle
  have hhigh := n.toInt_lt
  have hlow := first.le_toInt
  rw [Int64.toInt_sub, Int.bmod_def] at hmin
  norm_num at hmin
  split_ifs at hmin <;> omega

theorem first_add_offset (first n : Int64) : first + unzigzag (zigzag (n - first) + 1 - 1) = n := by
  rw [UInt64.add_sub_cancel, unzigzag_zigzag, Int64.add_comm, Int64.sub_add_cancel]

namespace Delta

def code (first : Int64) : Option Int64 → UInt64
  | none => 0
  | some n => zigzag (n - first) + 1

theorem encodeCell_eq (first : Int64) (cell : Option Int64) :
    encodeCell first cell = writeVarint (code first cell) := by
  cases cell with
  | none =>
    change [0] = writeVarint 0
    decide
  | some n => rfl

theorem encodeCell_pos (first : Int64) (cell : Option Int64) :
    0 < (encodeCell first cell).length := by
  rw [encodeCell_eq]
  exact Varint.writeU64_length_pos _

theorem encodeCell_le (first : Int64) (cell : Option Int64) :
    (encodeCell first cell).length ≤ 10 := by
  rw [encodeCell_eq]
  exact writeVarint_length_le _

theorem readVarint_encodeCell (first : Int64) (cell : Option Int64) (rest : Bytes) :
    readVarint (encodeCell first cell ++ rest) =
      (code first cell, (encodeCell first cell).length) := by
  rw [encodeCell_eq, readVarint_writeVarint]

/-- Integers that the offset from the first can tell apart from an absence. -/
def InReach (first : Int64) (cell : Option Int64) : Prop :=
  ∀ n ∈ cell, first ≤ n ∧ n.toInt - first.toInt ≠ 2 ^ 63

theorem decode_code {first : Int64} {cell : Option Int64} (h : InReach first cell) :
    (if code first cell = 0 then none else some (first + unzigzag (code first cell - 1))) =
      cell := by
  cases cell with
  | none => rfl
  | some n =>
    obtain ⟨hle, hahead⟩ := h n rfl
    rw [code, if_neg (offset_ne_zero hle hahead), first_add_offset]

theorem rowsLoop_packed {first : Int64} {rows : List (Option Int64)}
    (h : ∀ cell ∈ rows, InReach first cell) :
    rowsLoop first rows.length (packed (encodeCell first) rows) = rows := by
  induction rows with
  | nil => rfl
  | cons cell rows ih =>
    have hrest := ih fun c hc => h c (List.mem_cons_of_mem _ hc)
    rw [List.length_cons, rowsLoop, packed_cons, readVarint_encodeCell]
    simp only [decode_code (h cell List.mem_cons_self), List.drop_left, hrest]

/-- Walking over rows ends where the next one starts. -/
theorem walk_packed (first : Int64) (cells : List (Option Int64)) {hi rows idx : ℕ}
    (hlen : idx + rows ≤ cells.length)
    (hhi : offset (encodeCell first) cells (idx + rows) ≤ hi) :
    walk (packed (encodeCell first) cells) hi rows (offset (encodeCell first) cells idx) =
      offset (encodeCell first) cells (idx + rows) := by
  induction rows generalizing idx with
  | zero => rfl
  | succ rows ih =>
    have hidx : idx < cells.length := by omega
    have hlt := offset_lt (encodeCell first) (encodeCell_pos first)
      (show idx < idx + (rows + 1) by omega) hidx
    have hstep : idx + 1 + rows = idx + (rows + 1) := by omega
    rw [walk, if_pos (by omega), drop_offset, List.drop_eq_getElem_cons hidx, packed_cons,
      readVarint_encodeCell, ← offset_succ _ hidx, ih (by omega) (by rwa [hstep]), hstep]

/-- A delta column's fields for the integers it encodes. -/
structure Encodes (d : Delta) (first : Int64) (cells : List (Option Int64)) : Prop where
  first_eq : d.first = first
  rows_eq : d.rows = cells.length
  above : first ≤ d.last
  bytes_eq : d.bytes = packed (encodeCell first) cells
  ends_eq : d.blockEnds =
    (directory (encodeCell first) deltaBlockRows cells).map UInt32.ofNat
  reach : ∀ cell ∈ cells, InReach first cell

theorem Encodes.deltaRows_eq {d : Delta} {first : Int64} {cells : List (Option Int64)}
    (h : d.Encodes first cells) : d.deltaRows = cells := by
  rw [deltaRows, h.first_eq, h.rows_eq, h.bytes_eq, rowsLoop_packed h.reach]

theorem Encodes.pushCell {d : Delta} {first : Int64} {cells : List (Option Int64)}
    (h : d.Encodes first cells) {cell : Option Int64} (hc : InReach first cell) :
    (d.pushCell cell).Encodes first (cells ++ [cell]) where
  first_eq := h.first_eq
  rows_eq := by simp [Delta.pushCell, h.rows_eq]
  above := by
    cases cell with
    | none => exact h.above
    | some n => exact (hc n rfl).1
  bytes_eq := by simp [Delta.pushCell, h.first_eq, h.bytes_eq, packed_push]
  ends_eq := by
    rw [directory_push _ (by decide), packed_push]
    simp only [Delta.pushCell, h.first_eq, h.rows_eq, h.bytes_eq, h.ends_eq]
    split_ifs with hr
    · rw [List.map_append, List.map_singleton]
    · rfl
  reach := by
    intro c hmem
    rcases List.mem_append.mp hmem with hmem | hmem
    · exact h.reach c hmem
    · rw [List.mem_singleton.mp hmem]
      exact hc

theorem encodes_nil (first : Int64) (asU64 : Bool) :
    Encodes ⟨first, first, 0, [], [], asU64⟩ first [] :=
  ⟨rfl, rfl, Int64.le_refl first, rfl, rfl, by simp⟩

@[simp] theorem pushCell_asU64 (d : Delta) (cell : Option Int64) :
    (d.pushCell cell).asU64 = d.asU64 := rfl

theorem Encodes.foldl {d : Delta} {first : Int64} {cells rows : List (Option Int64)}
    (h : d.Encodes first cells) (hr : ∀ cell ∈ rows, InReach first cell) :
    (rows.foldl Delta.pushCell d).Encodes first (cells ++ rows) ∧
      (rows.foldl Delta.pushCell d).asU64 = d.asU64 := by
  induction rows generalizing d cells with
  | nil => exact ⟨by rwa [List.append_nil], rfl⟩
  | cons cell rows ih =>
    have hrest := ih (h.pushCell (hr cell List.mem_cons_self))
      fun c hc => hr c (List.mem_cons_of_mem _ hc)
    rwa [List.append_assoc] at hrest

/-- The end of every completed block fits the directory's width. -/
def Directed (first : Int64) (cells : List (Option Int64)) : Prop :=
  ∀ bi < cells.length / deltaBlockRows,
    offset (encodeCell first) cells (deltaBlockRows * (bi + 1)) < 2 ^ 32

instance (first : Int64) (cells : List (Option Int64)) : Decidable (Directed first cells) :=
  Nat.decidableBallLT _ _

theorem directed_of_small {first : Int64} {cells : List (Option Int64)}
    (hsize : 10 * cells.length < 2 ^ 32) : Directed first cells := by
  intro bi _
  have hle := offset_le (encodeCell first) cells (deltaBlockRows * (bi + 1))
  have hbytes : (packed (encodeCell first) cells).length ≤ 10 * cells.length :=
    packed_length_le _ fun cell _ => encodeCell_le first cell
  omega

/-- The directory keeps an offset as long as it fits its width. -/
theorem Encodes.blockEnd {d : Delta} {first : Int64} {cells : List (Option Int64)}
    (h : d.Encodes first cells) (hsize : Directed first cells) (bi : ℕ) :
    (d.blockEnds[bi]?).map UInt32.toNat =
      if bi < cells.length / deltaBlockRows then
        some (offset (encodeCell first) cells (deltaBlockRows * (bi + 1)))
      else none := by
  rw [h.ends_eq, directory, List.getElem?_map, List.getElem?_map]
  split_ifs with hbi
  · rw [List.getElem?_range hbi]
    simp only [Option.map_some, UInt32.toNat_ofNat', Option.some.injEq]
    exact Nat.mod_eq_of_lt (hsize bi hbi)
  · rw [List.getElem?_eq_none (by simpa using hbi)]
    rfl

theorem Encodes.blockLo_eq {d : Delta} {first : Int64} {cells : List (Option Int64)}
    (h : d.Encodes first cells) (hsize : Directed first cells) {bi : ℕ}
    (hbi : bi * deltaBlockRows ≤ cells.length) :
    d.blockLo bi = offset (encodeCell first) cells (bi * deltaBlockRows) := by
  rw [blockLo]
  split_ifs with h0
  · rw [h0, Nat.zero_mul, offset_zero]
  · have hend := h.blockEnd hsize (bi - 1)
    have hfull : bi ≤ cells.length / deltaBlockRows :=
      (Nat.le_div_iff_mul_le (by decide)).mpr hbi
    rw [if_pos (by omega)] at hend
    obtain ⟨e, he, hoff⟩ := Option.map_eq_some_iff.mp hend
    rw [he, Option.getD_some, hoff, Nat.sub_add_cancel (by omega), Nat.mul_comm]

theorem Encodes.le_blockHi {d : Delta} {first : Int64} {cells : List (Option Int64)}
    (h : d.Encodes first cells) (hsize : Directed first cells) {bi n : ℕ}
    (hn : n ≤ (bi + 1) * deltaBlockRows) :
    offset (encodeCell first) cells n ≤ d.blockHi bi := by
  have hwhole : offset (encodeCell first) cells n ≤ d.bytes.length := by
    rw [h.bytes_eq]
    exact offset_le _ _ _
  have hend := h.blockEnd hsize bi
  rw [blockHi]
  cases he : d.blockEnds[bi]? with
  | none => exact hwhole
  | some e =>
    rw [he, Option.map_some] at hend
    split_ifs at hend with hfull
    simp only [Option.some.injEq] at hend
    simp only []
    split_ifs
    · rw [hend, Nat.mul_comm]
      exact offset_mono _ _ hn
    · exact hwhole

/-- A row's span starts at its encoding and takes the whole of it in. -/
theorem Encodes.deltaRowSpan_eq {d : Delta} {first : Int64} {cells : List (Option Int64)}
    (h : d.Encodes first cells) (hsize : Directed first cells) {row : ℕ}
    (hrow : row < cells.length) :
    ∃ hi, d.deltaRowSpan row = some (offset (encodeCell first) cells row, hi) ∧
      offset (encodeCell first) cells (row + 1) ≤ hi := by
  have hdown : row / deltaBlockRows * deltaBlockRows ≤ row := Nat.div_mul_le_self _ _
  have hup : row + 1 ≤ (row / deltaBlockRows + 1) * deltaBlockRows := by
    rw [Nat.mul_comm]
    exact Nat.lt_mul_div_succ row (by decide)
  have hlo : d.blockLo (row / deltaBlockRows) =
      offset (encodeCell first) cells (row / deltaBlockRows * deltaBlockRows) :=
    h.blockLo_eq hsize (by omega)
  have hhi := h.le_blockHi hsize hup
  have hnext := offset_succ (encodeCell first) hrow
  have hten := encodeCell_le first cells[row]
  have hreach : row / deltaBlockRows * deltaBlockRows +
      (row - row / deltaBlockRows * deltaBlockRows) = row := Nat.add_sub_of_le hdown
  have hwalk : walk d.bytes (d.blockHi (row / deltaBlockRows))
      (row - row / deltaBlockRows * deltaBlockRows)
      (offset (encodeCell first) cells (row / deltaBlockRows * deltaBlockRows)) =
      offset (encodeCell first) cells row := by
    rw [h.bytes_eq, walk_packed first cells (by rw [hreach]; omega) (by rw [hreach]; omega), hreach]
  refine ⟨min (d.blockHi (row / deltaBlockRows)) (offset (encodeCell first) cells row + 16), ?_,
    by omega⟩
  rw [deltaRowSpan, if_neg (by rw [h.rows_eq]; omega)]
  simp only [hlo, hwalk]

theorem get_none {d : Delta} {row : ℕ} (h : d.rows ≤ row) : d.get row = none := by
  rw [get, deltaRowSpan, if_pos h]
  rfl

/-- A row's span begins with the row's encoding. -/
theorem Encodes.row_bytes {d : Delta} {first : Int64} {cells : List (Option Int64)}
    (h : d.Encodes first cells) (hsize : Directed first cells) {row : ℕ}
    (hrow : row < cells.length) : ∃ lo hi rest, d.deltaRowSpan row = some (lo, hi) ∧
      (d.bytes.drop lo).take (hi - lo) = encodeCell first cells[row] ++ rest := by
  obtain ⟨hi, hspan, hcover⟩ := h.deltaRowSpan_eq hsize hrow
  have hnext := offset_succ (encodeCell first) hrow
  refine ⟨offset (encodeCell first) cells row, hi, ?_⟩
  rw [h.bytes_eq, drop_offset, List.drop_eq_getElem_cons hrow, packed_cons, List.take_append,
    List.take_of_length_le (by omega)]
  exact ⟨_, hspan, rfl⟩

/-- Reading a row of a delta column gives the integer encoded there. -/
theorem Encodes.get_eq {d : Delta} {first : Int64} {cells : List (Option Int64)}
    (h : d.Encodes first cells) (hsize : Directed first cells) (row : ℕ) :
    d.get row = (cells[row]?).join := by
  by_cases hrow : row < cells.length
  · obtain ⟨lo, hi, rest, hspan, hbytes⟩ := h.row_bytes hsize hrow
    have hcell := h.reach cells[row] (List.getElem_mem hrow)
    rw [List.getElem?_eq_getElem hrow, Option.join_some, get, hspan]
    simp only [Option.bind_eq_bind, Option.bind_some, hbytes]
    cases hc : cells[row] with
    | none => rfl
    | some n =>
      rw [hc] at hcell
      obtain ⟨hle, hahead⟩ := hcell n rfl
      obtain ⟨b, tail, hw, hb⟩ := writeVarint_head (offset_ne_zero hle hahead)
      have hread := readVarint_encodeCell first (some n) rest
      simp only [encodeCell] at hread ⊢
      rw [hw] at hread ⊢
      simp only [List.cons_append, if_neg hb] at hread ⊢
      rw [hread, h.first_eq, code, first_add_offset]
  · rw [List.getElem?_eq_none (by omega), get_none (by rw [h.rows_eq]; omega)]
    rfl

end Delta

/-! ## The cells of a column -/

/-- Integers of one signedness, none far above the first that is present. -/
structure Ints (asU64 : Bool) (first : Int64) (ints : List (Option Int64))
    (cells : List (Option OrdValue)) : Prop where
  cells_eq : cells = ints.map (Option.map (intValue asU64))
  ahead : ∀ n, some n ∈ ints → Ahead first n
  first_eq : ∀ n, ints.findSome? id = some n → n = first

namespace Column

/-- Whether a value goes with a column that its field's first value asked for. -/
def fits : Value → Value → Bool
  | .bool _, .bool _ => true
  | .i64 _, .i64 _ => true
  | .u64 _, .u64 _ => true
  | .f64 _, .f64 _ => true
  | .str _, .str _ => true
  | .bool _, _ | .i64 _, _ | .u64 _, _ | .f64 _, _ | .str _, _ => false
  | _, .i64 _ | _, .u64 _ => false
  | _, _ => true

/-- Integers under one name: of one signedness, and less than half the range above the
first. -/
def tame : Value → Value → Bool
  | .i64 first, .i64 n => Ahead first n
  | .u64 first, .u64 n => Ahead first.toInt64 n.toInt64
  | .i64 _, .u64 _ | .u64 _, .i64 _ => false
  | _, _ => true

/-- The column of a field whose first value is given holds these cells. -/
def Shows (first : OrdValue) (cells : List (Option OrdValue)) : Column → Prop
  | bool bs => (∃ b, first.1 = .bool b) ∧ cells = bs.map (Option.map fun b => ⟨.bool b, trivial⟩)
  | i64 ns => ∃ m, first = intValue false m ∧ Ints false m ns cells
  | u64 ns =>
    ∃ m, first = intValue true m ∧ Ints true m (ns.map (Option.map UInt64.toInt64)) cells
  | f64 fs => (∃ f, first.1 = .f64 f) ∧ cells = fs.map (Option.map fun f => ⟨.f64 f, trivial⟩)
  | dict words codes => (∃ s, first.1 = .str s) ∧ words.length ≤ codes.length ∧
      (∀ c, some c ∈ codes → c.toNat < words.length) ∧
      cells = codes.map fun code => code.bind fun c =>
        (words[c.toNat]?).map fun s => ⟨.str s, trivial⟩
  | delta d => ∃ m ints, first = intValue d.asU64 m ∧ d.Encodes m ints ∧
      Ints d.asU64 m ints cells
  | other vs => forValue first = other [] ∧ cells = vs

variable {first : OrdValue} {cells : List (Option OrdValue)} {col : Column}

theorem toInt64_toUInt64 (ns : List (Option Int64)) :
    (ns.map (Option.map Int64.toUInt64)).map (Option.map UInt64.toInt64) = ns := by
  rw [List.map_map]
  conv_rhs => rw [← List.map_id ns]
  apply List.map_congr_left
  intro n _
  cases n with
  | none => rfl
  | some n => simp

theorem toUInt64_toInt64 (ns : List (Option UInt64)) :
    (ns.map (Option.map UInt64.toInt64)).map (Option.map Int64.toUInt64) = ns := by
  rw [List.map_map]
  conv_rhs => rw [← List.map_id ns]
  apply List.map_congr_left
  intro n _
  cases n with
  | none => rfl
  | some n => simp

theorem shows_plain {asU64 : Bool} {m : Int64} {ints : List (Option Int64)}
    (h : Ints asU64 m ints cells) : (plain asU64 ints).Shows (intValue asU64 m) cells := by
  cases asU64 with
  | false => exact ⟨m, rfl, h⟩
  | true => exact ⟨m, rfl, by rwa [toInt64_toUInt64]⟩

theorem Shows.len_eq (h : col.Shows first cells) : col.len = cells.length := by
  cases col with
  | bool bs => simp [h.2, len]
  | i64 ns =>
    obtain ⟨m, -, hi⟩ := h
    simp [hi.cells_eq, len]
  | u64 ns =>
    obtain ⟨m, -, hi⟩ := h
    simp [hi.cells_eq, len]
  | f64 fs => simp [h.2, len]
  | dict words codes => simp [h.2.2.2, len]
  | delta d =>
    obtain ⟨m, ints, -, hd, hi⟩ := h
    simp [hi.cells_eq, len, hd.rows_eq]
  | other vs => simp [h.2, len]

/-- Reading a row of a column gives its cell. -/
theorem Shows.get_eq (h : col.Shows first cells) (hsize : 10 * cells.length < 2 ^ 32)
    (row : ℕ) : col.get row = (cells[row]?).join := by
  have hmap : ∀ {α : Type} (xs : List (Option α)) (f : α → OrdValue),
      (xs[row]?).join.map f = ((xs.map (Option.map f))[row]?).join := by
    intro α xs f
    rw [List.getElem?_map]
    cases xs[row]? with
    | none => rfl
    | some x => rfl
  cases col with
  | bool bs => rw [h.2, ← hmap, get]
  | i64 ns =>
    obtain ⟨m, -, hi⟩ := h
    rw [hi.cells_eq, ← hmap, get]
    rfl
  | u64 ns =>
    obtain ⟨m, -, hi⟩ := h
    rw [hi.cells_eq, List.map_map, get, hmap]
    congr 3
    funext n
    cases n with
    | none => rfl
    | some n => simp [intValue]
  | f64 fs => rw [h.2, ← hmap, get]
  | dict words codes =>
    rw [h.2.2.2, List.getElem?_map, get]
    cases codes[row]? with
    | none => rfl
    | some code => rfl
  | delta d =>
    obtain ⟨m, ints, -, hd, hi⟩ := h
    have hlen : cells.length = ints.length := by rw [hi.cells_eq, List.length_map]
    rw [hi.cells_eq, ← hmap, get, hd.get_eq (Delta.directed_of_small (by rwa [← hlen]))]
  | other vs => rw [h.2, get]

theorem shows_forValue (v : OrdValue) : (forValue v).Shows v [] := by
  obtain ⟨v, ho⟩ := v
  cases v with
  | bool b => exact ⟨⟨b, rfl⟩, rfl⟩
  | i64 n => exact ⟨n, rfl, rfl, by simp, by simp⟩
  | u64 n => exact ⟨n.toInt64, by simp [intValue], rfl, by simp, by simp⟩
  | f64 f => exact ⟨⟨f, rfl⟩, rfl⟩
  | str s => exact ⟨⟨s, rfl⟩, by simp, by simp, rfl⟩
  | _ => exact ⟨rfl, rfl⟩

/-! ## One more cell -/

theorem Ints.absent {asU64 : Bool} {m : Int64} {ints : List (Option Int64)}
    (h : Ints asU64 m ints cells) : Ints asU64 m (ints ++ [none]) (cells ++ [none]) where
  cells_eq := by rw [h.cells_eq, List.map_append, List.map_singleton, Option.map_none]
  ahead n hn := h.ahead n (by simpa using hn)
  first_eq n hn := h.first_eq n (by simpa using hn)

theorem Ints.present {asU64 : Bool} {m n : Int64} {ints : List (Option Int64)}
    (h : Ints asU64 m ints cells) (hn : Ahead m n) (hfirst : ints.findSome? id = none → n = m) :
    Ints asU64 m (ints ++ [some n]) (cells ++ [some (intValue asU64 n)]) where
  cells_eq := by rw [h.cells_eq, List.map_append, List.map_singleton, Option.map_some]
  ahead k hk := by
    rcases List.mem_append.mp hk with hk | hk
    · exact h.ahead k hk
    · rw [Option.some.inj (List.mem_singleton.mp hk)]
      exact hn
  first_eq k hk := by
    rw [List.findSome?_append] at hk
    cases hf : ints.findSome? id with
    | some j =>
      rw [hf, Option.some_or, Option.some.injEq] at hk
      rw [← hk]
      exact h.first_eq j hf
    | none =>
      rw [hf, Option.none_or] at hk
      simp only [List.findSome?_singleton, id, Option.some.injEq] at hk
      rw [← hk]
      exact hfirst hf

/-- The first of integers that never decrease is the smallest. -/
theorem first_le {prev : Option Int64} {ints : List (Option Int64)}
    (h : nonDecreasing prev ints) {m : Int64} (hm : prev.or (ints.findSome? id) = some m) :
    ∀ n, some n ∈ ints → m ≤ n := by
  induction ints generalizing prev m with
  | nil => nofun
  | cons cell rest ih =>
    intro n hn
    cases cell with
    | none =>
      rw [nonDecreasing] at h
      exact ih h (by simpa using hm) n (by simpa using hn)
    | some v =>
      rw [nonDecreasing, Bool.and_eq_true] at h
      have hmv : m ≤ v := by
        cases prev with
        | none =>
          simp only [List.findSome?_cons, id, Option.none_or, Option.some.injEq] at hm
          rw [hm]
          exact Int64.le_refl m
        | some p =>
          simp only [Option.some_or, Option.some.injEq] at hm
          rw [← hm]
          simpa using h.1
      rcases List.mem_cons.mp hn with hn | hn
      · rw [Option.some.inj hn]
        exact hmv
      · exact Int64.le_trans hmv (ih h.2 (Option.some_or) n hn)

theorem shows_compress {asU64 : Bool} {m : Int64} {ints : List (Option Int64)}
    (h : Ints asU64 m ints cells) (hm : ints.findSome? id = some m) :
    (compress asU64 ints).Shows (intValue asU64 m) cells := by
  rw [compress]
  split_ifs with hc
  · have hreach : ∀ cell ∈ ints, Delta.InReach m cell := by
      intro cell hcell n hn
      rw [Option.mem_def.mp hn] at hcell
      exact ⟨first_le hc.2.2 (by rw [Option.none_or, hm]) n hcell, (h.ahead n hcell).ne⟩
    obtain ⟨hd, hsign⟩ := (Delta.encodes_nil m asU64).foldl hreach
    simp only [hm, Option.getD_some]
    exact ⟨m, ints, by rw [hsign], hd, by rwa [hsign]⟩
  · exact shows_plain h

theorem maybeCompress_plain (enabled asU64 : Bool) (ints : List (Option Int64)) :
    maybeCompress enabled (plain asU64 ints) =
      if enabled then compress asU64 ints else plain asU64 ints := by
  cases enabled with
  | false => rfl
  | true =>
    cases asU64 with
    | false => rfl
    | true =>
      change compress true _ = _
      rw [toInt64_toUInt64]
      rfl

theorem pushPlain_plain (enabled asU64 : Bool) (ints : List (Option Int64)) (n : Int64) :
    pushPlain enabled (plain asU64 ints) n asU64 =
      maybeCompress enabled (plain asU64 (ints ++ [some n])) := by
  cases asU64 with
  | false => rfl
  | true => simp [plain, pushPlain]

/-- An integer of the column's signedness goes into its plain form. -/
theorem shows_pushPlain (enabled : Bool) {asU64 : Bool} {m n : Int64} {ints : List (Option Int64)}
    (h : Ints asU64 m ints cells) (hn : Ahead m n) (hfirst : ints.findSome? id = none → n = m) :
    (pushPlain enabled (plain asU64 ints) n asU64).Shows (intValue asU64 m)
      (cells ++ [some (intValue asU64 n)]) := by
  have hmore := Ints.present h hn hfirst
  have hm : (ints ++ [some n]).findSome? id = some m := by
    cases hf : (ints ++ [some n]).findSome? id with
    | some k => rw [hmore.first_eq k hf]
    | none => simp at hf
  rw [pushPlain_plain, maybeCompress_plain]
  split_ifs
  · exact shows_compress hmore hm
  · exact shows_plain hmore

theorem plain_toInt64 (ns : List (Option UInt64)) :
    plain true (ns.map (Option.map UInt64.toInt64)) = u64 ns := by
  change u64 _ = _
  rw [toUInt64_toInt64]

theorem Shows.expand (h : col.Shows first cells) : col.expand.Shows first cells := by
  cases col with
  | delta d =>
    obtain ⟨m, ints, rfl, hd, hi⟩ := h
    change (plain d.asU64 d.deltaRows).Shows _ _
    rw [hd.deltaRows_eq]
    exact shows_plain hi
  | _ => exact h

theorem Shows.pushNull (h : col.Shows first cells) :
    col.pushNull.Shows first (cells ++ [none]) := by
  cases col with
  | bool bs => exact ⟨h.1, by simp [h.2]⟩
  | i64 ns =>
    obtain ⟨m, hf, hi⟩ := h
    exact ⟨m, hf, Ints.absent hi⟩
  | u64 ns =>
    obtain ⟨m, hf, hi⟩ := h
    exact ⟨m, hf, by simpa using Ints.absent hi⟩
  | f64 fs => exact ⟨h.1, by simp [h.2]⟩
  | dict words codes =>
    obtain ⟨hs, hlen, hcodes, hcells⟩ := h
    exact ⟨hs, by simp; omega, fun c hc => hcodes c (by simpa using hc), by simp [hcells]⟩
  | delta d =>
    obtain ⟨m, ints, hf, hd, hi⟩ := h
    exact ⟨m, ints ++ [none], hf, hd.pushCell nofun, Ints.absent hi⟩
  | other vs => exact ⟨h.1, by rw [h.2]⟩

theorem present_of_cells {asU64 : Bool} {m : Int64} {ints : List (Option Int64)}
    (h : Ints asU64 m ints cells) (hnone : ints.findSome? id = none) : ∀ c ∈ cells, c = none := by
  intro c hc
  rw [h.cells_eq] at hc
  obtain ⟨n, hn, rfl⟩ := List.mem_map.mp hc
  rw [show n = none from List.findSome?_eq_none_iff.mp hnone n hn]
  rfl

theorem intValue_inj {asU64 : Bool} {m n : Int64} (h : intValue asU64 m = intValue asU64 n) :
    m = n := by
  have hval := congrArg Subtype.val h
  cases asU64 with
  | false => simpa [intValue] using hval
  | true =>
    have hcast := congrArg UInt64.toInt64 (Value.u64.inj hval)
    rwa [Int64.toInt64_toUInt64, Int64.toInt64_toUInt64] at hcast

/-- An integer of a column's signedness goes into it. -/
theorem shows_pushInt (enabled : Bool) {asU64 : Bool} {m n : Int64}
    (h : col.Shows (intValue asU64 m) cells) (hn : Ahead m n)
    (hfirst : (∀ c ∈ cells, c = none) → n = m) :
    (col.pushInt enabled n asU64).Shows (intValue asU64 m)
      (cells ++ [some (intValue asU64 n)]) := by
  cases col with
  | i64 ns =>
    obtain ⟨k, hk, hi⟩ := h
    cases asU64 with
    | true => cases congrArg Subtype.val hk
    | false =>
      obtain rfl := intValue_inj hk
      exact shows_pushPlain enabled hi hn fun hf => hfirst (present_of_cells hi hf)
  | u64 ns =>
    obtain ⟨k, hk, hi⟩ := h
    cases asU64 with
    | false => cases congrArg Subtype.val hk
    | true =>
      obtain rfl := intValue_inj hk
      have hpush := shows_pushPlain enabled hi hn
        fun hf => hfirst (present_of_cells hi hf)
      rwa [plain_toInt64] at hpush
  | delta d =>
    obtain ⟨k, ints, hk, hd, hi⟩ := h
    have hsign : d.asU64 = asU64 := by
      cases asU64 with
      | false =>
        cases hs : d.asU64 with
        | false => rfl
        | true => rw [hs] at hk; cases congrArg Subtype.val hk
      | true =>
        cases hs : d.asU64 with
        | true => rfl
        | false => rw [hs] at hk; cases congrArg Subtype.val hk
    subst hsign
    obtain rfl := intValue_inj hk
    have hfirst' := fun hf => hfirst (present_of_cells hi hf)
    rw [pushInt, deltaPushInt]
    split_ifs with hle
    · have hreach : Delta.InReach m (some n) := by
        intro k hk
        rw [← Option.some.inj hk]
        exact ⟨Int64.le_trans hd.above hle, hn.ne⟩
      exact ⟨m, ints ++ [some n], rfl, hd.pushCell hreach, Ints.present hi hn hfirst'⟩
    · rw [hd.deltaRows_eq]
      exact shows_pushPlain enabled hi hn hfirst'
  | bool bs => cases asU64 <;> obtain ⟨⟨b, hb⟩, -⟩ := h <;> cases hb
  | f64 fs => cases asU64 <;> obtain ⟨⟨f, hf⟩, -⟩ := h <;> cases hf
  | dict words codes => cases asU64 <;> obtain ⟨⟨s, hs⟩, -⟩ := h <;> cases hs
  | other vs => cases asU64 <;> cases h.1

/-- An integer where none belongs is recorded as an absence. -/
theorem pushInt_other (enabled : Bool) (h : col.Shows first cells)
    (hf : ∀ asU64 m, first ≠ intValue asU64 m) (n : Int64) (srcU64 : Bool) :
    col.pushInt enabled n srcU64 = col.pushNull := by
  cases col with
  | i64 ns =>
    obtain ⟨m, hm, -⟩ := h
    exact absurd hm (hf _ _)
  | u64 ns =>
    obtain ⟨m, hm, -⟩ := h
    exact absurd hm (hf _ _)
  | delta d =>
    obtain ⟨m, ints, hm, -⟩ := h
    exact absurd hm (hf _ _)
  | _ => cases srcU64 <;> rfl

/-- Text has a code: that of its place in the dictionary, or a new one at its end. -/
theorem shows_pushWord {words : List String} {codes : List (Option UInt32)}
    (h : (dict words codes).Shows first cells) (hsize : 10 * (cells.length + 1) < 2 ^ 32)
    (t : String) :
    ((dict words codes).pushNonInteger (some ⟨.str t, trivial⟩)).Shows first
      (cells ++ [some ⟨.str t, trivial⟩]) := by
  obtain ⟨hs, hlen, hcodes, hcells⟩ := h
  have hrows : cells.length = codes.length := by rw [hcells, List.length_map]
  have hcode : ∀ {i : ℕ} {more : List String}, (words ++ more)[i]? = some t → i ≤ words.length →
      (words ++ more).length ≤ codes.length + 1 →
      (dict (words ++ more) (codes ++ [some (UInt32.ofNat i)])).Shows first
        (cells ++ [some ⟨.str t, trivial⟩]) := by
    intro i more hi hle hroom
    have hval : (UInt32.ofNat i).toNat = i := by
      rw [UInt32.toNat_ofNat']
      exact Nat.mod_eq_of_lt (by omega)
    have hlt : i < (words ++ more).length := (List.getElem?_eq_some_iff.mp hi).1
    refine ⟨hs, by simpa using hroom, fun c hc => ?_, ?_⟩
    · rcases List.mem_append.mp hc with hc | hc
      · have hold := hcodes c hc
        rw [List.length_append]
        omega
      · rwa [Option.some.inj (List.mem_singleton.mp hc), hval]
    · rw [hcells, List.map_append, List.map_singleton, Option.bind_some, hval, hi, Option.map_some]
      congr 1
      apply List.map_congr_left
      intro code hmem
      cases code with
      | none => rfl
      | some c =>
        rw [Option.bind_some, Option.bind_some, List.getElem?_append_left (hcodes c hmem)]
  simp only [pushNonInteger]
  cases hi : words.idxOf? t with
  | some i =>
    obtain ⟨hlt, hword, -⟩ := List.idxOf?_eq_some_iff.mp hi
    have hold : (words ++ [])[i]? = some t := by simp [hlt, hword]
    have hshow := hcode hold hlt.le (by simp; omega)
    rwa [List.append_nil] at hshow
  | none => exact hcode (by simp) (le_refl _) (by simp; omega)

/-- A value that is no integer goes into a column of its kind, and is an absence in
another. -/
theorem shows_pushNonInteger {v : OrdValue} (h : col.Shows first cells)
    (hsize : 10 * (cells.length + 1) < 2 ^ 32) (hv : ∀ asU64 m, v ≠ intValue asU64 m) :
    (col.pushNonInteger (some v)).Shows first
      (cells ++ [if fits first.1 v.1 then some v else none]) := by
  obtain ⟨v, ho⟩ := v
  obtain ⟨f, hf⟩ := first
  have hnull := Shows.pushNull h
  cases col with
  | bool bs =>
    obtain ⟨⟨b, rfl⟩, hc⟩ := h
    cases v with
    | bool x => exact ⟨⟨b, rfl⟩, by simp [hc, fits]⟩
    | _ => exact hnull
  | f64 fs =>
    obtain ⟨⟨x, rfl⟩, hc⟩ := h
    cases v with
    | f64 y => exact ⟨⟨x, rfl⟩, by simp [hc, fits]⟩
    | _ => exact hnull
  | dict words codes =>
    have hword := shows_pushWord h hsize
    obtain ⟨⟨s, rfl⟩, -⟩ := h
    cases v with
    | str t => exact hword t
    | _ => exact hnull
  | i64 ns =>
    obtain ⟨m, hm, -⟩ := h
    obtain rfl : f = .i64 m := congrArg Subtype.val hm
    cases v with
    | i64 n => exact absurd rfl (hv false n)
    | _ => exact hnull
  | u64 ns =>
    obtain ⟨m, hm, -⟩ := h
    obtain rfl : f = .u64 m.toUInt64 := congrArg Subtype.val hm
    cases v with
    | u64 n => exact absurd (by simp [intValue]) (hv true n.toInt64)
    | _ => exact hnull
  | delta d =>
    obtain ⟨m, ints, hm, -⟩ := h
    cases v with
    | i64 n => exact absurd rfl (hv false n)
    | u64 n => exact absurd (by simp [intValue]) (hv true n.toInt64)
    | _ => cases hs : d.asU64 <;> rw [hs] at hm <;> cases hm <;> exact hnull
  | other vs =>
    obtain ⟨hother, rfl⟩ := h
    cases v with
    | i64 n => exact absurd rfl (hv false n)
    | u64 n => exact absurd (by simp [intValue]) (hv true n.toInt64)
    | _ => cases f <;> cases hother <;> exact ⟨rfl, rfl⟩

/-- What is pushed is one more cell: the value where it goes with the column's first, an
absence elsewhere. -/
theorem Shows.push (enabled : Bool) {v : OrdValue} (h : col.Shows first cells)
    (hsize : 10 * (cells.length + 1) < 2 ^ 32) (ht : tame first.1 v.1)
    (hfirst : (∀ c ∈ cells, c = none) → v = first) :
    (col.push enabled (some v)).Shows first
      (cells ++ [if fits first.1 v.1 then some v else none]) := by
  obtain ⟨v, ho⟩ := v
  obtain ⟨f, hf⟩ := first
  cases v with
  | i64 n =>
    cases f with
    | i64 m => exact shows_pushInt enabled h (of_decide_eq_true ht) fun hc => Value.i64.inj (congrArg Subtype.val (hfirst hc))
    | u64 m => cases ht
    | _ =>
      change (col.pushInt enabled n false).Shows _ _
      rw [pushInt_other enabled h (fun asU64 m => by cases asU64 <;> nofun)]
      exact Shows.pushNull h
  | u64 n =>
    cases f with
    | u64 m =>
      have hm : (⟨.u64 m, hf⟩ : OrdValue) = intValue true m.toInt64 := by simp [intValue]
      have hn : (⟨.u64 n, ho⟩ : OrdValue) = intValue true n.toInt64 := by simp [intValue]
      rw [hm, hn] at hfirst
      rw [hm] at h ⊢
      have hpush := shows_pushInt enabled h (of_decide_eq_true ht) fun hc => intValue_inj (hfirst hc)
      rw [← hn] at hpush
      exact hpush
    | i64 m => cases ht
    | _ =>
      change (col.pushInt enabled n.toInt64 true).Shows _ _
      rw [pushInt_other enabled h (fun asU64 m => by cases asU64 <;> nofun)]
      exact Shows.pushNull h
  | _ => exact shows_pushNonInteger h hsize fun asU64 m => by cases asU64 <;> nofun

end Column

end Adabt.Engine
