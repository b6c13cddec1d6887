import Adabt.Storage.Cursor

/-! # Tag-length-value

One value written with its own description, so no schema is needed to read it
back. The reader returns ordered values only. -/

set_option autoImplicit false

namespace Adabt.Storage
open Adabt.Core Adabt.Library

def zigzag (v : Int64) : UInt64 := ((v <<< 1) ^^^ (v >>> 63)).toUInt64

def unzigzag (v : UInt64) : Int64 := (v >>> 1).toInt64 ^^^ -((v &&& 1).toInt64)

namespace Tag

def null : UInt8 := 0
def false : UInt8 := 1
def true : UInt8 := 2
def i64 : UInt8 := 3
def u64 : UInt8 := 4
def f64 : UInt8 := 5
def str : UInt8 := 6
def bytes : UInt8 := 7
def list : UInt8 := 8
def map : UInt8 := 9
def decimal : UInt8 := 10
def timestamp : UInt8 := 11

end Tag

def maxDepth : ℕ := 64

def writeLen (n : ℕ) : Bytes := Varint.writeU64 (UInt64.ofNat n)

def writeStr (s : String) : Bytes := writeLen s.utf8ByteSize ++ utf8 s

mutual

def writeTlv : Value → Bytes
  | .null => [Tag.null]
  | .decimal units scale => Tag.decimal :: scale :: leBytes 16 units.toNat
  | .timestamp t => Tag.timestamp :: leBytes 8 t.toUInt64.toNat
  | .bool false => [Tag.false]
  | .bool true => [Tag.true]
  | .i64 n => Tag.i64 :: Varint.writeU64 (zigzag n)
  | .u64 n => Tag.u64 :: Varint.writeU64 n
  | .f64 f => Tag.f64 :: leBytes 8 f.bits.toNat
  | .str s => Tag.str :: writeStr s
  | .bytes b => Tag.bytes :: (writeLen b.length ++ b)
  | .list items => Tag.list :: (writeLen items.length ++ writeItems items)
  | .map m => Tag.map :: (writeLen m.length ++ writeEntries m)

def writeItems : List Value → Bytes
  | [] => []
  | v :: vs => writeTlv v ++ writeItems vs

/-- Names with their values, as in a map, a dynamic record or an overflow bag. -/
def writeEntries : List (String × Value) → Bytes
  | [] => []
  | (k, v) :: es => writeStr k ++ writeTlv v ++ writeEntries es

end

theorem orderedItems_map (items : List OrdValue) :
    Value.OrderedItems (items.map Subtype.val) := by
  induction items with
  | nil => trivial
  | cons v vs ih => exact ⟨v.2, ih⟩

theorem orderedEntries_map (es : List (String × OrdValue)) :
    Value.OrderedEntries (es.map fun e => (e.1, e.2.1)) := by
  induction es with
  | nil => trivial
  | cons e es ih => exact ⟨e.2.2, ih⟩

def rawEntries (m : OrdMap String OrdValue) : List (String × Value) :=
  m.entries.map fun e => (e.1, e.2.1)

theorem rawEntries_sorted (m : OrdMap String OrdValue) :
    (rawEntries m).Pairwise (fun a b => a.1 < b.1) := by
  simpa [rawEntries, List.pairwise_map] using m.sorted

def ordList (items : List OrdValue) : OrdValue :=
  ⟨.list (items.map Subtype.val), orderedItems_map items⟩

def ordMap (m : OrdMap String OrdValue) : OrdValue :=
  ⟨.map (rawEntries m), rawEntries_sorted m, orderedEntries_map m.entries⟩

abbrev Reader (α : Type) := Cursor → Except Error (α × Cursor)

def readItems (read : Reader OrdValue) : ℕ → Reader (List OrdValue)
  | 0, c => .ok ([], c)
  | n + 1, c => do
    let (v, c) ← read c
    let (vs, c) ← readItems read n c
    return (v :: vs, c)

def readEntries (read : Reader OrdValue) :
    ℕ → OrdMap String OrdValue → Reader (OrdMap String OrdValue)
  | 0, m, c => .ok (m, c)
  | n + 1, m, c => do
    let (klen, c) ← c.varint
    let (k, c) ← c.string klen.toNat
    let (v, c) ← read c
    readEntries read n (m.insert k v) c

def tooMany (what things : String) (n : ℕ) (c : Cursor) : Error :=
  .corruption (what ++ " of " ++ toString n ++ " " ++ things ++ " exceeds " ++
    toString c.remaining ++ " remaining bytes")

/-- Read one value with `left` levels of nesting still allowed. -/
def readTlvAt : ℕ → Reader OrdValue
  | 0, _ => .error (.corruption ("record nesting deeper than " ++ toString maxDepth))
  | left + 1, c => do
    let (t, c) ← c.u8
    if t = Tag.null then return (⟨.null, trivial⟩, c)
    else if t = Tag.decimal then do
      let (scale, c) ← c.u8
      let (b, c) ← c.take 16
      return (⟨.decimal (BitVec.ofNat 128 (ofLeBytes b)) scale, trivial⟩, c)
    else if t = Tag.timestamp then do
      let (n, c) ← c.u64
      return (⟨.timestamp n.toInt64, trivial⟩, c)
    else if t = Tag.false then return (⟨.bool false, trivial⟩, c)
    else if t = Tag.true then return (⟨.bool true, trivial⟩, c)
    else if t = Tag.i64 then do
      let (n, c) ← c.varint
      return (⟨.i64 (unzigzag n), trivial⟩, c)
    else if t = Tag.u64 then do
      let (n, c) ← c.varint
      return (⟨.u64 n, trivial⟩, c)
    else if t = Tag.f64 then do
      let (n, c) ← c.u64
      return (⟨.f64 ⟨n⟩, trivial⟩, c)
    else if t = Tag.str then do
      let (n, c) ← c.varint
      let (s, c) ← c.string n.toNat
      return (⟨.str s, trivial⟩, c)
    else if t = Tag.bytes then do
      let (n, c) ← c.varint
      let (b, c) ← c.take n.toNat
      return (⟨.bytes b, trivial⟩, c)
    else if t = Tag.list then do
      let (n, c) ← c.varint
      ensure (n.toNat ≤ c.remaining) (tooMany "list" "items" n.toNat c)
      let (items, c) ← readItems (readTlvAt left) n.toNat c
      return (ordList items, c)
    else if t = Tag.map then do
      let (n, c) ← c.varint
      ensure (n.toNat ≤ c.remaining) (tooMany "map" "entries" n.toNat c)
      let (m, c) ← readEntries (readTlvAt left) n.toNat ∅ c
      return (ordMap m, c)
    else .error (.corruption ("unknown value tag " ++ toString t.toNat ++ " in record"))

/-- `read_tlv_value`: refuse depths beyond `maxDepth`. -/
def readTlvValue (depth : ℕ) : Reader OrdValue := readTlvAt (maxDepth + 1 - depth)

end Adabt.Storage
