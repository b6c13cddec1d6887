import Adabt.Core.Record
import Adabt.Library.Merge
import Adabt.Storage.Tlv

/-! # The column store

A field is kept as one column with a cell for each row. What a column can hold
is settled by the first value it is given. Arithmetic on differences wraps, as it
does in a release build. -/

set_option autoImplicit false

namespace Adabt.Engine
open Adabt.Core Adabt.Library Adabt.Storage

def writeVarint (v : UInt64) : Bytes := Varint.writeU64 v

def readVarintLoop (v shift : UInt64) (i : ℕ) : Bytes → UInt64 × ℕ
  | [] => (v, i)
  | b :: rest =>
    let v := v ||| ((b &&& 0x7f).toUInt64 <<< shift)
    if b &&& 0x80 = 0 then (v, i + 1) else readVarintLoop v (shift + 7) (i + 1) rest

/-- The value and how many bytes it took. Bytes that run out end the value. -/
def readVarint (buf : Bytes) : UInt64 × ℕ := readVarintLoop 0 0 0 buf

/-- The length from which a plain integer column may go delta. -/
def deltaMinRows : ℕ := 128

/-- Rows to an entry of the byte directory. -/
def deltaBlockRows : ℕ := 32

/-! ## Offsets from the first value -/

structure Delta where
  first : Int64
  last : Int64
  rows : ℕ
  /-- Where each completed block of rows ends. -/
  blockEnds : List UInt32
  bytes : Bytes
  asU64 : Bool

namespace Delta

def encodeCell (first : Int64) : Option Int64 → Bytes
  | none => [0]
  | some n => writeVarint (zigzag (n - first) + 1)

/-- A row at the end, and its place in the directory if it completes a block. -/
def pushCell (d : Delta) (cell : Option Int64) : Delta :=
  let bytes := d.bytes ++ encodeCell d.first cell
  { d with
    last := cell.getD d.last
    rows := d.rows + 1
    blockEnds := if (d.rows + 1) % deltaBlockRows = 0
      then d.blockEnds ++ [UInt32.ofNat bytes.length] else d.blockEnds
    bytes := bytes }

def rowsLoop (first : Int64) : ℕ → Bytes → List (Option Int64)
  | 0, _ => []
  | rows + 1, bytes =>
    let (z, used) := readVarint bytes
    (if z = 0 then none else some (first + unzigzag (z - 1))) ::
      rowsLoop first rows (bytes.drop used)

/-- Every row as an optional integer. -/
def deltaRows (d : Delta) : List (Option Int64) := rowsLoop d.first d.rows d.bytes

def walk (bytes : Bytes) (hi : ℕ) : ℕ → ℕ → ℕ
  | 0, pos => pos
  | rows + 1, pos =>
    if pos < hi then walk bytes hi rows (pos + (readVarint (bytes.drop pos)).2) else pos

/-- Where a block starts. -/
def blockLo (d : Delta) (bi : ℕ) : ℕ :=
  if bi = 0 then 0 else ((d.blockEnds[bi - 1]?).getD 0).toNat

/-- Where a block ends: the last one may not be complete. -/
def blockHi (d : Delta) (bi : ℕ) : ℕ :=
  match d.blockEnds[bi]? with
  | some blockEnd =>
    if (bi + 1) * deltaBlockRows ≤ d.rows then blockEnd.toNat else d.bytes.length
  | none => d.bytes.length

/-- Where a row's encoding lies: from the start of its block, over the rows before it. -/
def deltaRowSpan (d : Delta) (row : ℕ) : Option (ℕ × ℕ) :=
  if d.rows ≤ row then none
  else
    let bi := row / deltaBlockRows
    let pos := walk d.bytes (d.blockHi bi) (row - bi * deltaBlockRows) (d.blockLo bi)
    some (pos, min (d.blockHi bi) (pos + 16))

def get (d : Delta) (row : ℕ) : Option Int64 := do
  let (lo, hi) ← d.deltaRowSpan row
  match (d.bytes.drop lo).take (hi - lo) with
  | [] => none
  | b :: rest =>
    if b = 0 then none
    else some (d.first + unzigzag ((readVarint (b :: rest)).1 - 1))

end Delta

/-! ## One column -/

inductive Column where
  | bool (cells : List (Option Bool))
  | i64 (cells : List (Option Int64))
  | u64 (cells : List (Option UInt64))
  | f64 (cells : List (Option F64))
  /-- Each row holds an index into the dictionary. -/
  | dict (words : List String) (codes : List (Option UInt32))
  | delta (d : Delta)
  /-- Anything that does not fit a typed column. -/
  | other (cells : List (Option OrdValue))

/-- An integer as a value of the column's signedness. -/
def intValue (asU64 : Bool) (n : Int64) : OrdValue :=
  if asU64 then ⟨.u64 n.toUInt64, trivial⟩ else ⟨.i64 n, trivial⟩

namespace Column

def len : Column → ℕ
  | bool cells => cells.length
  | i64 cells => cells.length
  | u64 cells => cells.length
  | f64 cells => cells.length
  | dict _ codes => codes.length
  | delta d => d.rows
  | other cells => cells.length

/-- Integers in the plain form of a signedness. -/
def plain (asU64 : Bool) (rows : List (Option Int64)) : Column :=
  if asU64 then u64 (rows.map (Option.map Int64.toUInt64)) else i64 rows

/-- Each value that is present is no smaller than the one before it. -/
def nonDecreasing : Option Int64 → List (Option Int64) → Bool
  | _, [] => true
  | prev, none :: rest => nonDecreasing prev rest
  | prev, some v :: rest => prev.all (· ≤ v) && nonDecreasing (some v) rest

def compress (asU64 : Bool) (rows : List (Option Int64)) : Column :=
  if rows.length.isPowerOfTwo ∧ deltaMinRows ≤ rows.length ∧ nonDecreasing none rows then
    let first := (rows.findSome? id).getD 0
    delta (rows.foldl Delta.pushCell ⟨first, first, 0, [], [], asU64⟩)
  else plain asU64 rows

/-- Attempt the conversion of a plain integer column to offsets. -/
def maybeCompress (enabled : Bool) (col : Column) : Column :=
  if !enabled then col
  else match col with
    | i64 rows => compress false rows
    | u64 rows => compress true (rows.map (Option.map UInt64.toInt64))
    | col => col

def get (col : Column) (row : ℕ) : Option OrdValue :=
  match col with
  | bool cells => (cells[row]?).join.map fun b => ⟨.bool b, trivial⟩
  | i64 cells => (cells[row]?).join.map fun n => ⟨.i64 n, trivial⟩
  | u64 cells => (cells[row]?).join.map fun n => ⟨.u64 n, trivial⟩
  | f64 cells => (cells[row]?).join.map fun f => ⟨.f64 f, trivial⟩
  | dict words codes =>
    (codes[row]?).join.bind fun c => (words[c.toNat]?).map fun s => ⟨.str s, trivial⟩
  | delta d => (d.get row).map (intValue d.asU64)
  | other cells => (cells[row]?).join

def pushNull : Column → Column
  | bool cells => bool (cells ++ [none])
  | i64 cells => i64 (cells ++ [none])
  | u64 cells => u64 (cells ++ [none])
  | f64 cells => f64 (cells ++ [none])
  | dict words codes => dict words (codes ++ [none])
  | delta d => delta (d.pushCell none)
  | other cells => other (cells ++ [none])

/-- An integer into a column that is not a delta column. A value that does not match
its column's type is recorded as an absence. -/
def pushPlain (enabled : Bool) (col : Column) (n : Int64) (srcU64 : Bool) : Column :=
  match col, srcU64 with
  | i64 cells, _ => maybeCompress enabled (i64 (cells ++ [some n]))
  | u64 cells, true => maybeCompress enabled (u64 (cells ++ [some n.toUInt64]))
  | col, _ => col.pushNull

/-- Out of order, the column is expanded and goes on as a plain one. -/
def deltaPushInt (enabled : Bool) (d : Delta) (n : Int64) (srcU64 : Bool) : Column :=
  if d.last ≤ n then delta (d.pushCell (some n))
  else pushPlain enabled (plain d.asU64 d.deltaRows) n srcU64

def pushInt (enabled : Bool) (col : Column) (n : Int64) (srcU64 : Bool) : Column :=
  match col with
  | delta d => deltaPushInt enabled d n srcU64
  | col => pushPlain enabled col n srcU64

def pushNonInteger (col : Column) (v : Option OrdValue) : Column :=
  match col, v with
  | bool cells, some ⟨.bool b, _⟩ => bool (cells ++ [some b])
  | f64 cells, some ⟨.f64 f, _⟩ => f64 (cells ++ [some f])
  | dict words codes, some ⟨.str s, _⟩ =>
    match words.idxOf? s with
    | some i => dict words (codes ++ [some (UInt32.ofNat i)])
    | none => dict (words ++ [s]) (codes ++ [some (UInt32.ofNat words.length)])
  | other cells, v => other (cells ++ [v])
  | col, _ => col.pushNull

def push (enabled : Bool) (col : Column) : Option OrdValue → Column
  | some ⟨.i64 n, _⟩ => col.pushInt enabled n false
  | some ⟨.u64 n, _⟩ => col.pushInt enabled n.toInt64 true
  | v => col.pushNonInteger v

/-- The column a first value asks for. -/
def forValue (v : OrdValue) : Column :=
  match v.1 with
  | .bool _ => bool []
  | .i64 _ => i64 []
  | .u64 _ => u64 []
  | .f64 _ => f64 []
  | .str _ => dict [] []
  | _ => other []

/-- Nulls until the column has that many rows. -/
def backFill (rows : ℕ) (col : Column) : Column := pushNull^[rows - col.len] col

/-- A delta column back in its plain form. -/
def expand : Column → Column
  | delta d => plain d.asU64 d.deltaRows
  | col => col

end Column

/-! ## The store -/

/-- A columnar copy of one collection. -/
structure ColumnStore where
  /-- Row order, matching every column's index. -/
  ids : List RecordId
  /-- Where each id sits. -/
  rowOf : OrdMap RecordId ℕ
  columns : OrdMap String Column
  /-- Rows whose id has been deleted. -/
  dead : List Bool

namespace ColumnStore

def empty : ColumnStore := ⟨[], ∅, ∅, []⟩

/-- A field's column with the value in the given row; one that appears late is
back-filled. -/
def appendField (enabled : Bool) (row : ℕ) (columns : OrdMap String Column)
    (e : String × OrdValue) : OrdMap String Column :=
  let col := (columns.get e.1).getD (Column.forValue e.2)
  columns.insert e.1 ((col.backFill row).push enabled (some e.2))

def append (enabled : Bool) (store : ColumnStore) (id : RecordId) (rec : Record) :
    ColumnStore :=
  let row := store.ids.length
  let columns := rec.entries.foldl (appendField enabled row) store.columns
  { ids := store.ids ++ [id]
    rowOf := store.rowOf.insert id row
    columns := columns.mapVal fun _ col => col.backFill (row + 1)
    dead := store.dead ++ [false] }

/-- Build from the authoritative representation. -/
def build (enabled : Bool) (rows : List (RecordId × Record)) : ColumnStore :=
  rows.foldl (fun store r => store.append enabled r.1 r.2) empty

/-- Columns already encoded are expanded when the encoding is turned off. -/
def setDeltaEnabled (store : ColumnStore) (enabled : Bool) : ColumnStore :=
  if enabled then store
  else { store with columns := store.columns.mapVal fun _ col => col.expand }

def markDead (store : ColumnStore) (id : RecordId) : ColumnStore :=
  match store.rowOf.get id with
  | none => store
  | some row =>
    { store with
      dead := store.dead.set row true
      rowOf := store.rowOf.erase id }

def isDead (store : ColumnStore) (row : ℕ) : Bool := (store.dead[row]?).getD true

def assemble (store : ColumnStore) (fields : List String) (row : ℕ) : Record :=
  fields.foldl (fun rec f => match store.columns.get f with
    | none => rec
    | some col => match col.get row with
      | some v => rec.set f v
      | none => rec) ∅

/-- Read only the named fields, in record-id order. -/
def project (store : ColumnStore) (fields : List String) : List (RecordId × Record) :=
  let rows := (store.ids.zipIdx.filter fun r => !store.isDead r.2)
  (sortBy (fun a b => compare a.1 b.1) rows).map fun r => (r.1, store.assemble fields r.2)

def get (store : ColumnStore) (id : RecordId) (fields : List String) : Option Record := do
  let row ← store.rowOf.get id
  if store.isDead row then none else some (store.assemble fields row)

end ColumnStore

end Adabt.Engine
