import Adabt.Engine.ColumnCells

/-! # Integer columns in either build

The arithmetic on offsets as the build does it: past 64 bits a checked build
panics and a release build wraps. A column that only takes integers of its kind
and absences gives back what each push supplied. -/

set_option autoImplicit false

namespace Adabt.Engine
open Adabt.Core Adabt.Library Adabt.Storage

/-- One below a code that was read. -/
def uncode (b : Build) (z : UInt64) : Except Fault UInt64 :=
  match b with
  | .checked =>
    if z = 0 then .error (.panicked "attempt to subtract with overflow") else .ok (z - 1)
  | .release => .ok (z - 1)

namespace Delta

/-- The offset of an integer, moved past the marker of an absence. -/
def codeIn (b : Build) (first n : Int64) : Except Fault UInt64 := do
  let gap ← b.signed "subtract" (n.toInt - first.toInt)
  let z ← b.word "add" ((zigzag gap).toNat + 1)
  return UInt64.ofNat z

def encodeCellIn (b : Build) (first : Int64) : Option Int64 → Except Fault Bytes
  | none => .ok [0]
  | some n => do
    let z ← codeIn b first n
    return writeVarint z

def pushCellIn (b : Build) (d : Delta) (cell : Option Int64) : Except Fault Delta := do
  let code ← encodeCellIn b d.first cell
  let bytes := d.bytes ++ code
  return { d with
    last := cell.getD d.last
    rows := d.rows + 1
    blockEnds := if (d.rows + 1) % deltaBlockRows = 0
      then d.blockEnds ++ [UInt32.ofNat bytes.length] else d.blockEnds
    bytes := bytes }

def pushCellsIn (b : Build) (d : Delta) : List (Option Int64) → Except Fault Delta
  | [] => .ok d
  | cell :: cells => do
    let d ← d.pushCellIn b cell
    d.pushCellsIn b cells

/-- The integer that a code other than the absence's stands for. -/
def intIn (b : Build) (first : Int64) (z : UInt64) : Except Fault Int64 := do
  let gap ← uncode b z
  b.signed "add" (first.toInt + (unzigzag gap).toInt)

def rowsIn (b : Build) (first : Int64) : ℕ → Bytes → Except Fault (List (Option Int64))
  | 0, _ => .ok []
  | rows + 1, bytes => do
    let (z, used) := readVarint bytes
    let row ← if z = 0 then .ok none else some <$> intIn b first z
    let rest ← rowsIn b first rows (bytes.drop used)
    return row :: rest

def getIn (b : Build) (d : Delta) (row : ℕ) : Except Fault (Option Int64) :=
  match d.deltaRowSpan row with
  | none => .ok none
  | some (lo, hi) => match (d.bytes.drop lo).take (hi - lo) with
    | [] => .ok none
    | x :: rest =>
      if x = 0 then .ok none else some <$> intIn b d.first (readVarint (x :: rest)).1

end Delta

namespace Column

/-- What decides whether a plain column of these rows goes delta. -/
def goesDelta (rows : List (Option Int64)) : Bool :=
  rows.length.isPowerOfTwo ∧ deltaMinRows ≤ rows.length ∧ nonDecreasing none rows

def compressIn (b : Build) (asU64 : Bool) (rows : List (Option Int64)) : Except Fault Column :=
  if goesDelta rows then
    let first := (rows.findSome? id).getD 0
    delta <$> Delta.pushCellsIn b ⟨first, first, 0, [], [], asU64⟩ rows
  else .ok (plain asU64 rows)

def maybeCompressIn (b : Build) (enabled : Bool) (col : Column) : Except Fault Column :=
  if !enabled then .ok col
  else match col with
    | i64 rows => compressIn b false rows
    | u64 rows => compressIn b true (rows.map (Option.map UInt64.toInt64))
    | col => .ok col

def pushPlainIn (b : Build) (enabled : Bool) (col : Column) (n : Int64) (srcU64 : Bool) :
    Except Fault Column :=
  match col, srcU64 with
  | i64 cells, _ => maybeCompressIn b enabled (i64 (cells ++ [some n]))
  | u64 cells, true => maybeCompressIn b enabled (u64 (cells ++ [some n.toUInt64]))
  | col, _ => .ok col.pushNull

/-- A delta column back in its plain form. -/
def expandIn (b : Build) : Column → Except Fault Column
  | delta d => plain d.asU64 <$> Delta.rowsIn b d.first d.rows d.bytes
  | col => .ok col

def pushIntIn (b : Build) (enabled : Bool) (col : Column) (n : Int64) (srcU64 : Bool) :
    Except Fault Column :=
  match col with
  | delta d =>
    if d.last ≤ n then delta <$> d.pushCellIn b (some n)
    else do
      let col ← expandIn b (delta d)
      pushPlainIn b enabled col n srcU64
  | col => pushPlainIn b enabled col n srcU64

def pushIn (b : Build) (enabled : Bool) (col : Column) : Option OrdValue → Except Fault Column
  | some ⟨.i64 n, _⟩ => col.pushIntIn b enabled n false
  | some ⟨.u64 n, _⟩ => col.pushIntIn b enabled n.toInt64 true
  | v => .ok (col.pushNonInteger v)

def getIn (b : Build) (col : Column) (row : ℕ) : Except Fault (Option OrdValue) :=
  match col with
  | delta d => Option.map (intValue d.asU64) <$> d.getIn b row
  | col => .ok (col.get row)

end Column

/-! ## Offsets that fit -/

/-- The distance of an integer from the first does no harm: a release build only
mistakes one of exactly 2^63 for an absence. -/
def Spans (first n : Int64) : Build → Prop
  | .checked => Ahead first n
  | .release => n.toInt - first.toInt ≠ 2 ^ 63

instance (first n : Int64) (b : Build) : Decidable (Spans first n b) :=
  match b with
  | .checked => inferInstanceAs (Decidable (Ahead first n))
  | .release => inferInstanceAs (Decidable (¬_))

section Offsets

variable {b : Build} {first n : Int64}

theorem Spans.ne (h : Spans first n b) : n.toInt - first.toInt ≠ 2 ^ 63 := by
  cases b with
  | checked => exact Ahead.ne h
  | release => exact h

theorem ofInt_sub_toInt (first n : Int64) : Int64.ofInt (n.toInt - first.toInt) = n - first := by
  rw [Int64.ofInt_sub, Int64.ofInt_toInt, Int64.ofInt_toInt]

theorem signed_ok (b : Build) (what : String) {n : Int} (h : -2 ^ 63 ≤ n) (h' : n < 2 ^ 63) :
    b.signed what n = .ok (Int64.ofInt n) := by
  have hlow : Int64.minValue.toInt = -2 ^ 63 := by decide
  have hhigh : Int64.maxValue.toInt = 2 ^ 63 - 1 := by decide
  exact if_pos ⟨by omega, by omega⟩

theorem Spans.gap (hle : first ≤ n) (h : Spans first n b) :
    b.signed "subtract" (n.toInt - first.toInt) = .ok (n - first) := by
  have hle' := Int64.le_iff_toInt_le.mp hle
  rw [← ofInt_sub_toInt]
  cases b with
  | checked => exact signed_ok _ _ (by omega) h
  | release => exact Build.signed_release _ _

theorem Spans.sum (hle : first ≤ n) (h : Spans first n b) :
    b.signed "add" (first.toInt + (n - first).toInt) = .ok n := by
  have hsum : Int64.ofInt (first.toInt + (n - first).toInt) = n := by
    rw [Int64.ofInt_add, Int64.ofInt_toInt, Int64.ofInt_toInt, Int64.add_comm,
      Int64.sub_add_cancel]
  cases b with
  | checked =>
    have hle' := Int64.le_iff_toInt_le.mp hle
    have hnear : n.toInt - first.toInt < 2 ^ 63 := h
    have hexact : (n - first).toInt = n.toInt - first.toInt := by
      rw [← ofInt_sub_toInt, Int64.toInt_ofInt_of_le (by omega) hnear]
    have hlow := n.le_toInt
    have hhigh := n.toInt_lt
    rw [signed_ok _ _ (by omega) (by omega), hsum]
  | release => rw [Build.signed_release, hsum]

theorem codeIn_eq (hle : first ≤ n) (h : Spans first n b) :
    Delta.codeIn b first n = .ok (zigzag (n - first) + 1) := by
  have hne := offset_ne_zero hle h.ne
  have hfits : (zigzag (n - first)).toNat + 1 < 2 ^ 64 := by
    by_contra hover
    have hlt := (zigzag (n - first)).toNat_lt
    refine hne (UInt64.toNat_inj.mp ?_)
    rw [UInt64.toNat_add]
    change ((zigzag (n - first)).toNat + 1) % 2 ^ 64 = 0
    omega
  rw [Delta.codeIn, h.gap hle, ok_bind, Build.word_ok _ _ hfits, ok_bind, UInt64.ofNat_add,
    UInt64.ofNat_toNat]
  rfl

theorem intIn_eq (hle : first ≤ n) (h : Spans first n b) :
    Delta.intIn b first (zigzag (n - first) + 1) = .ok n := by
  have hne := offset_ne_zero hle h.ne
  have hpred : uncode b (zigzag (n - first) + 1) = .ok (zigzag (n - first)) := by
    cases b with
    | checked => rw [uncode, if_neg hne, UInt64.add_sub_cancel]
    | release => rw [uncode, UInt64.add_sub_cancel]
  rw [Delta.intIn, hpred, ok_bind, unzigzag_zigzag, h.sum hle]

end Offsets

namespace Delta

/-- A cell whose integer is written and read back as it is. -/
def Within (b : Build) (first : Int64) (cell : Option Int64) : Prop :=
  ∀ n ∈ cell, first ≤ n ∧ Spans first n b

variable {b : Build} {first : Int64} {d : Delta} {cell : Option Int64}
  {cells : List (Option Int64)}

theorem Within.inReach (h : Within b first cell) : InReach first cell := fun n hn =>
  ⟨(h n hn).1, (h n hn).2.ne⟩

theorem Within.encodeCellIn (h : Within b first cell) :
    encodeCellIn b first cell = .ok (encodeCell first cell) := by
  cases cell with
  | none => rfl
  | some n =>
    obtain ⟨hle, hspan⟩ := h n rfl
    rw [Delta.encodeCellIn, codeIn_eq hle hspan]
    rfl

theorem Within.pushCellIn (h : Within b d.first cell) :
    d.pushCellIn b cell = .ok (d.pushCell cell) := by
  rw [Delta.pushCellIn, h.encodeCellIn]
  rfl

theorem pushCellsIn_eq (h : ∀ cell ∈ cells, Within b d.first cell) :
    d.pushCellsIn b cells = .ok (cells.foldl pushCell d) := by
  induction cells generalizing d with
  | nil => rfl
  | cons cell cells ih =>
    have hpush := Within.pushCellIn (h cell List.mem_cons_self)
    rw [pushCellsIn, hpush, ok_bind, List.foldl_cons]
    exact ih fun c hc => h c (List.mem_cons_of_mem _ hc)

theorem rowsIn_packed (h : ∀ cell ∈ cells, Within b first cell) :
    rowsIn b first cells.length (packed (encodeCell first) cells) = .ok cells := by
  induction cells with
  | nil => rfl
  | cons cell cells ih =>
    have hrest := ih fun c hc => h c (List.mem_cons_of_mem _ hc)
    rw [List.length_cons, rowsIn, packed_cons, readVarint_encodeCell]
    simp only [List.drop_left, hrest]
    cases cell with
    | none => rfl
    | some n =>
      obtain ⟨hle, hspan⟩ := h (some n) List.mem_cons_self n rfl
      rw [code, if_neg (offset_ne_zero hle hspan.ne), intIn_eq hle hspan]
      rfl

/-- Reading a row does no arithmetic that fails. -/
theorem Encodes.getIn_eq (hd : d.Encodes first cells) (hsize : Directed first cells)
    (h : ∀ cell ∈ cells, Within b first cell) (row : ℕ) :
    d.getIn b row = .ok (cells[row]?).join := by
  by_cases hrow : row < cells.length
  · obtain ⟨lo, hi, rest, hspan, hbytes⟩ := hd.row_bytes hsize hrow
    have hcell := h cells[row] (List.getElem_mem hrow)
    rw [List.getElem?_eq_getElem hrow, Option.join_some, getIn, hspan]
    simp only [hbytes]
    cases hc : cells[row] with
    | none => rfl
    | some n =>
      rw [hc] at hcell
      obtain ⟨hle, hn⟩ := hcell n rfl
      obtain ⟨x, tail, hw, hx⟩ := writeVarint_head (offset_ne_zero hle hn.ne)
      have hread := readVarint_encodeCell first (some n) rest
      simp only [encodeCell] at hread ⊢
      rw [hw] at hread ⊢
      simp only [List.cons_append, if_neg hx] at hread ⊢
      rw [hread, hd.first_eq, code, intIn_eq hle hn]
      rfl
  · have hspan : d.deltaRowSpan row = none := if_pos (by rw [hd.rows_eq]; omega)
    rw [List.getElem?_eq_none (by omega), getIn, hspan]
    rfl

end Delta

/-! ## One integer column -/

/-- The first integer that is present, if any, can carry the offsets of them all, and
the directory the ends of their blocks. -/
def Encodable (b : Build) (rows : List (Option Int64)) : Prop :=
  ∀ first ∈ rows.findSome? id, (∀ cell ∈ rows, ∀ n ∈ cell, Spans first n b) ∧
    Delta.Directed first rows

instance decidableEncodable (b : Build) (rows : List (Option Int64)) :
    Decidable (Encodable b rows) :=
  have hcell : ∀ first : Int64, DecidablePred fun cell : Option Int64 =>
      ∀ n ∈ cell, Spans first n b := fun _ cell => cell.decidableForallMem
  have hall : DecidablePred fun first : Int64 =>
      (∀ cell ∈ rows, ∀ n ∈ cell, Spans first n b) ∧ Delta.Directed first rows := fun first =>
    @instDecidableAnd _ _ (@List.decidableBAll _ _ (hcell first) rows) inferInstance
  @Option.decidableForallMem _ _ hall (rows.findSome? id)

namespace Column

/-- The integers a column stores. -/
def rows : Column → List (Option Int64)
  | i64 rows => rows
  | u64 rows => rows.map (Option.map UInt64.toInt64)
  | delta d => d.deltaRows
  | _ => []

/-- Whether a push leaves the column in its delta form. -/
def writesDelta (enabled : Bool) (col : Column) (cell : Option Int64) : Bool :=
  match col, cell with
  | delta d, some n => d.last ≤ n || (enabled && goesDelta (d.deltaRows ++ [some n]))
  | delta _, none => true
  | _, none => false
  | col, some n => enabled && goesDelta (col.rows ++ [some n])

/-- An integer column of one kind holds these integers. -/
def Holds (b : Build) (asU64 : Bool) (ints : List (Option Int64)) (col : Column) : Prop :=
  col = plain asU64 ints ∨ ∃ d first, col = delta d ∧ d.asU64 = asU64 ∧ d.Encodes first ints ∧
    ints.findSome? id = some first ∧ Encodable b ints

variable {b : Build} {asU64 enabled : Bool} {ints : List (Option Int64)} {col : Column}

theorem within_of_encodes {d : Delta} {first : Int64} (hd : d.Encodes first ints)
    (hfirst : ints.findSome? id = some first) (h : Encodable b ints) :
    ∀ cell ∈ ints, Delta.Within b first cell := fun cell hcell n hn =>
  ⟨(hd.reach cell hcell n hn).1, (h first hfirst).1 cell hcell n hn⟩

theorem findSome_push {first : Int64} (h : ints.findSome? id = some first)
    (cell : Option Int64) : (ints ++ [cell]).findSome? id = some first := by
  rw [List.findSome?_append, h]
  rfl

theorem rows_plain (asU64 : Bool) (ints : List (Option Int64)) : (plain asU64 ints).rows = ints := by
  cases asU64 with
  | false => rfl
  | true => exact toInt64_toUInt64 ints

theorem len_plain (asU64 : Bool) (ints : List (Option Int64)) :
    (plain asU64 ints).len = ints.length := by
  cases asU64 with
  | false => rfl
  | true => exact List.length_map _

/-- A row that was pushed is read as it was supplied. -/
theorem Holds.getIn (h : col.Holds b asU64 ints) (row : ℕ) :
    col.getIn b row = .ok ((ints[row]?).join.map (intValue asU64)) := by
  rcases h with rfl | ⟨d, first, rfl, rfl, hd, hfirst, henc⟩
  · cases asU64 with
    | false => rfl
    | true =>
      change Except.ok (Option.map _ ((ints.map (Option.map Int64.toUInt64))[row]?).join) = _
      rw [List.getElem?_map]
      cases ints[row]? with
      | none => rfl
      | some cell => cases cell <;> rfl
  · have hget := hd.getIn_eq (henc first hfirst).2 (within_of_encodes hd hfirst henc) row
    rw [Column.getIn, hget]
    rfl

theorem Holds.len_eq (h : col.Holds b asU64 ints) : col.len = ints.length := by
  rcases h with rfl | ⟨d, first, rfl, -, hd, -⟩
  · exact len_plain asU64 ints
  · exact hd.rows_eq

theorem Holds.expandIn (h : col.Holds b asU64 ints) :
    col.expandIn b = .ok (plain asU64 ints) := by
  rcases h with rfl | ⟨d, first, rfl, rfl, hd, hfirst, henc⟩
  · cases asU64 <;> rfl
  · rw [Column.expandIn, hd.first_eq, hd.rows_eq, hd.bytes_eq,
      Delta.rowsIn_packed (within_of_encodes hd hfirst henc)]
    rfl

/-- A push that converts the column writes every row of it. -/
theorem holds_compressIn (hsome : ∃ n, some n ∈ ints)
    (henc : goesDelta ints = true → Encodable b ints) :
    ∃ col, compressIn b asU64 ints = .ok col ∧ col.Holds b asU64 ints := by
  rw [compressIn]
  split_ifs with hgoes
  · obtain ⟨n, hn⟩ := hsome
    obtain ⟨first, hfirst⟩ : ∃ first, ints.findSome? id = some first := by
      rw [← Option.isSome_iff_exists, List.findSome?_isSome_iff]
      exact ⟨some n, hn, rfl⟩
    have hall := henc hgoes
    rw [goesDelta, decide_eq_true_eq] at hgoes
    have hwithin : ∀ cell ∈ ints, Delta.Within b first cell := fun cell hcell k hk =>
      ⟨first_le hgoes.2.2 (by rw [Option.none_or, hfirst]) k (by rwa [← hk]),
        (hall first hfirst).1 cell hcell k hk⟩
    obtain ⟨hd, hsign⟩ := (Delta.encodes_nil first asU64).foldl fun cell hcell =>
      (hwithin cell hcell).inReach
    have hpush := Delta.pushCellsIn_eq (d := ⟨first, first, 0, [], [], asU64⟩) hwithin
    refine ⟨_, ?_, .inr ⟨_, first, rfl, hsign, hd, hfirst, hall⟩⟩
    simp only [hfirst, Option.getD_some, hpush]
    rfl
  · exact ⟨_, rfl, .inl rfl⟩

theorem holds_pushPlainIn (n : Int64)
    (henc : (enabled && goesDelta (ints ++ [some n])) = true → Encodable b (ints ++ [some n])) :
    ∃ col, pushPlainIn b enabled (plain asU64 ints) n asU64 = .ok col ∧
      col.Holds b asU64 (ints ++ [some n]) := by
  have hpush : pushPlainIn b enabled (plain asU64 ints) n asU64 =
      maybeCompressIn b enabled (plain asU64 (ints ++ [some n])) := by
    cases asU64 with
    | false => rfl
    | true => simp [plain, pushPlainIn]
  rw [hpush]
  cases enabled with
  | false => exact ⟨_, rfl, .inl rfl⟩
  | true =>
    have hcompress : maybeCompressIn b true (plain asU64 (ints ++ [some n])) =
        compressIn b asU64 (ints ++ [some n]) := by
      cases asU64 with
      | false => rfl
      | true =>
        change compressIn b true _ = _
        rw [toInt64_toUInt64]
    rw [hcompress]
    exact holds_compressIn ⟨n, by simp⟩ henc

/-- A push into a column that holds these integers is one integer or absence more. -/
theorem Holds.pushIn (h : col.Holds b asU64 ints) (cell : Option Int64)
    (henc : col.writesDelta enabled cell = true → Encodable b (col.rows ++ [cell])) :
    ∃ col', col.pushIn b enabled (cell.map (intValue asU64)) = .ok col' ∧
      col'.Holds b asU64 (ints ++ [cell]) := by
  have hint : ∀ n, col.pushIn b enabled ((some n).map (intValue asU64)) =
      col.pushIntIn b enabled n asU64 := by
    intro n
    cases asU64 with
    | false => rfl
    | true => simp [Column.pushIn, intValue]
  rcases h with rfl | ⟨d, first, rfl, rfl, hd, hfirst, hold⟩
  · rw [rows_plain] at henc
    cases cell with
    | none =>
      refine ⟨plain asU64 (ints ++ [none]), ?_, .inl rfl⟩
      cases asU64 with
      | false => rfl
      | true => simp [plain, Column.pushIn, pushNonInteger, pushNull]
    | some n =>
      rw [hint]
      have hplain : (plain asU64 ints).pushIntIn b enabled n asU64 =
          pushPlainIn b enabled (plain asU64 ints) n asU64 := by cases asU64 <;> rfl
      rw [hplain]
      refine holds_pushPlainIn n fun hgoes => henc ?_
      have hrows := rows_plain asU64 ints
      cases asU64 with
      | false => exact hgoes
      | true =>
        change (enabled && goesDelta ((plain true ints).rows ++ [some n])) = true
        rwa [hrows]
  · have hrows : (delta d).rows = ints := hd.deltaRows_eq
    rw [hrows] at henc
    have hkeep : ∀ (hall : Encodable b (ints ++ [cell])) (hc : ∀ n ∈ cell, first ≤ n),
        ∃ d', d.pushCellIn b cell = .ok d' ∧
          (delta d').Holds b d.asU64 (ints ++ [cell]) := by
      intro hall hc
      have hmore := findSome_push hfirst cell
      have hcell : Delta.Within b first cell := fun n hn =>
        ⟨hc n hn, (hall first hmore).1 cell (by simp) n hn⟩
      refine ⟨_, Delta.Within.pushCellIn (hd.first_eq ▸ hcell),
        .inr ⟨_, first, rfl, rfl, hd.pushCell hcell.inReach, hmore, hall⟩⟩
    cases cell with
    | none =>
      obtain ⟨d', hpush, hholds⟩ := hkeep (henc rfl) (by simp)
      rw [Delta.pushCellIn] at hpush
      exact ⟨delta d', congrArg (Except.map delta) hpush, hholds⟩
    | some n =>
      rw [hint, pushIntIn]
      split_ifs with hle
      · have hfirstle : ∀ k ∈ some n, first ≤ k := fun k hk => by
          rw [← Option.some.inj hk]
          exact Int64.le_trans hd.above hle
        obtain ⟨d', hpush, hholds⟩ := hkeep (henc (by simp [writesDelta, hle])) hfirstle
        exact ⟨delta d', by rw [hpush]; rfl, hholds⟩
      · have hexpand := Holds.expandIn (.inr ⟨d, first, rfl, rfl, hd, hfirst, hold⟩)
        rw [hexpand, ok_bind]
        refine holds_pushPlainIn n fun hgoes => henc ?_
        rw [writesDelta, hd.deltaRows_eq, hgoes, Bool.or_true]

end Column

/-! ## Every run of pushes and switches -/

inductive ColumnCall where
  | push (cell : Option Int64)
  | switch (on : Bool)
  /-- What switching the encoding off does to a delta column. -/
  | expand

/-- A column, and whether columns may go delta. -/
structure Switched where
  enabled : Bool
  col : Column

namespace ColumnCall

/-- The integers pushed, in order. -/
def pushed : List ColumnCall → List (Option Int64)
  | [] => []
  | push cell :: calls => cell :: pushed calls
  | _ :: calls => pushed calls

/-- A push that leaves the column in its delta form writes integers that the form can
carry. -/
def Clear (b : Build) (s : Switched) : ColumnCall → Prop
  | push cell => s.col.writesDelta s.enabled cell = true → Encodable b (s.col.rows ++ [cell])
  | _ => True

instance (b : Build) (s : Switched) (c : ColumnCall) : Decidable (c.Clear b s) :=
  match c with
  | push _ => inferInstanceAs (Decidable (_ → _))
  | switch _ | expand => .isTrue trivial

end ColumnCall

namespace Switched

/-- A column of one kind with nothing in it. -/
def start (asU64 enabled : Bool) : Switched := ⟨enabled, .plain asU64 []⟩

def perform (b : Build) (asU64 : Bool) (s : Switched) : ColumnCall → Except Fault Switched
  | .push cell => do
    let col ← s.col.pushIn b s.enabled (cell.map (intValue asU64))
    return { s with col := col }
  | .switch on => .ok { s with enabled := on }
  | .expand => do
    let col ← s.col.expandIn b
    return { s with col := col }

def run (b : Build) (asU64 : Bool) (s : Switched) : List ColumnCall → Except Fault Switched
  | [] => .ok s
  | c :: calls => do
    let s ← s.perform b asU64 c
    s.run b asU64 calls

/-- Every call of the run is clear in the state it is made in. -/
def ClearRun (b : Build) (asU64 : Bool) (s : Switched) : List ColumnCall → Prop
  | [] => True
  | c :: calls => c.Clear b s ∧
    ∀ s' ∈ (s.perform b asU64 c).toOption, s'.ClearRun b asU64 calls

instance decidableClearRun (b : Build) (asU64 : Bool) :
    (calls : List ColumnCall) → (s : Switched) → Decidable (s.ClearRun b asU64 calls)
  | [], _ => .isTrue trivial
  | _ :: calls, _ =>
    @instDecidableAnd _ _ inferInstance
      (@Option.decidableForallMem _ _ (decidableClearRun b asU64 calls) _)

variable {b : Build} {asU64 : Bool} {ints : List (Option Int64)}

theorem perform_holds {s : Switched} (h : s.col.Holds b asU64 ints) {c : ColumnCall}
    (hclear : c.Clear b s) : ∃ s', s.perform b asU64 c = .ok s' ∧
      s'.col.Holds b asU64 (ints ++ ColumnCall.pushed [c]) := by
  cases c with
  | push cell =>
    obtain ⟨col, hpush, hcol⟩ := h.pushIn cell hclear
    refine ⟨⟨s.enabled, col⟩, ?_, hcol⟩
    rw [perform, hpush]
    rfl
  | switch on => exact ⟨_, rfl, by simpa [ColumnCall.pushed] using h⟩
  | expand =>
    refine ⟨⟨s.enabled, .plain asU64 ints⟩, ?_, .inl (by simp [ColumnCall.pushed])⟩
    rw [perform, h.expandIn]
    rfl

theorem pushed_cons (c : ColumnCall) (calls : List ColumnCall) :
    ColumnCall.pushed (c :: calls) = ColumnCall.pushed [c] ++ ColumnCall.pushed calls := by
  cases c <;> rfl

theorem run_holds {s : Switched} (h : s.col.Holds b asU64 ints) {calls : List ColumnCall}
    (hclear : s.ClearRun b asU64 calls) : ∃ s', s.run b asU64 calls = .ok s' ∧
      s'.col.Holds b asU64 (ints ++ ColumnCall.pushed calls) := by
  induction calls generalizing s ints with
  | nil => exact ⟨s, rfl, by simpa [ColumnCall.pushed] using h⟩
  | cons c calls ih =>
    obtain ⟨s₁, hstep, h₁⟩ := perform_holds h hclear.1
    have hrest := hclear.2 s₁ (by rw [hstep]; rfl)
    obtain ⟨s₂, hrun, h₂⟩ := ih h₁ hrest
    refine ⟨s₂, ?_, ?_⟩
    · rw [run, hstep]
      exact hrun
    · rwa [pushed_cons, ← List.append_assoc]

/-- In every run whose pushes into the delta form carry their offsets, no arithmetic
fails in either build, and each row reads as its push supplied it. -/
theorem integer_column_lossless (b : Build) (asU64 enabled : Bool) (calls : List ColumnCall)
    (hclear : (start asU64 enabled).ClearRun b asU64 calls) :
    ∃ s, (start asU64 enabled).run b asU64 calls = .ok s ∧
      s.col.len = (ColumnCall.pushed calls).length ∧
      ∀ i, s.col.getIn b i =
        .ok (((ColumnCall.pushed calls)[i]?).join.map (intValue asU64)) := by
  obtain ⟨s, hrun, hholds⟩ := run_holds (s := start asU64 enabled) (.inl rfl) hclear
  exact ⟨s, hrun, hholds.len_eq, hholds.getIn⟩

/-- Even numbers until the column goes delta, then an absence, and one out of order. -/
def evens : List ColumnCall :=
  (List.range 128).map (fun i => .push (some (Int64.ofNat (2 * i)))) ++
    [.push none, .push (some 300), .push (some 5)]

theorem evens_lossless : ∃ s, (start false true).run .checked false evens = .ok s ∧
    s.col.len = (ColumnCall.pushed evens).length ∧ ∀ i, s.col.getIn .checked i =
      .ok (((ColumnCall.pushed evens)[i]?).join.map (intValue false)) :=
  integer_column_lossless .checked false true evens (by decide +kernel)

/-- The highest integer pushed last of 128, behind ones as far below it as its offset is
wide. -/
def farthest : List ColumnCall :=
  List.replicate 127 (.push (some (-1))) ++ [.push (some 9223372036854775807)]

/-- Its offset wraps onto the absence's marker in a release build, and a checked build
stops at it. -/
theorem farthest_lost : (ColumnCall.pushed farthest)[127]? = some (some 9223372036854775807) ∧
    ((start false true).run .release false farthest >>= fun s =>
      Option.isSome <$> s.col.getIn .release 127) = .ok false ∧
    ((start false true).run .checked false farthest >>= fun s =>
      Option.isSome <$> s.col.getIn .checked 127) =
      .error (.panicked "attempt to subtract with overflow") := by
  decide +kernel

end Switched

end Adabt.Engine
