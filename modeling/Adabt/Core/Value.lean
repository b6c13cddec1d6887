import Adabt.Core.Float64
import Adabt.Library.Bytes
import Adabt.Library.OrdMap
import Mathlib.Data.String.Basic

/-! # The logical value domain

Values carry a total order in which exact numerics compare exactly and any
comparison involving a float goes through `canon`. A map is listed by its
entries; `Ordered` says that every map lists its keys in ascending order. -/

set_option autoImplicit false

namespace Adabt.Core
open Adabt.Library

inductive Value where
  | null
  | bool (b : Bool)
  | i64 (n : Int64)
  | u64 (n : UInt64)
  | f64 (f : F64)
  | decimal (units : BitVec 128) (scale : UInt8)
  | timestamp (t : Int64)
  | str (s : String)
  | bytes (b : Bytes)
  | list (items : List Value)
  | map (m : List (String × Value))
  deriving Repr

def checkedI128 (n : Int) : Option (BitVec 128) :=
  if -(2 ^ 127) ≤ n ∧ n < 2 ^ 127 then some (BitVec.ofInt 128 n) else none

/-- `10i128.checked_pow(k)`. -/
def checkedPow10 (k : ℕ) : Option Int :=
  if 10 ^ k < 2 ^ 127 then some (10 ^ k) else none

/-- Move a fixed-point value to a different scale, exactly or not at all. -/
def rescale (units : BitVec 128) (source target : UInt8) : Option (BitVec 128) :=
  if source ≤ target then do
    let factor ← checkedPow10 (target.toNat - source.toNat)
    checkedI128 (units.toInt * factor)
  else do
    let divisor ← checkedPow10 (source.toNat - target.toNat)
    if units.toInt.tmod divisor = 0 then checkedI128 (units.toInt.tdiv divisor) else none

namespace Value

def exactUnits : Value → Option (Int × UInt8)
  | i64 n => some (n.toInt, 0)
  | u64 n => some (n.toNat, 0)
  | decimal units scale => some (units.toInt, scale)
  | _ => none

def lift (target : UInt8) (u : Int) (s : UInt8) : Option (BitVec 128) := do
  let factor ← checkedPow10 (target.toNat - s.toNat)
  checkedI128 (u * factor)

def cmpExact (a b : Value) : Option Ordering := do
  let (au, asc) ← a.exactUnits
  let (bu, bsc) ← b.exactUnits
  let target := max asc bsc
  let x ← lift target au asc
  let y ← lift target bu bsc
  return compare x.toInt y.toInt

def rank : Value → ℕ
  | null => 0
  | bool _ => 1
  | i64 _ | u64 _ | f64 _ | decimal _ _ => 2
  | str _ => 3
  | bytes _ => 4
  | list _ => 5
  | map _ => 6
  | timestamp _ => 7

def typeName : Value → String
  | null => "null"
  | bool _ => "bool"
  | i64 _ => "i64"
  | u64 _ => "u64"
  | f64 _ => "f64"
  | decimal _ _ => "decimal"
  | timestamp _ => "timestamp"
  | str _ => "str"
  | bytes _ => "bytes"
  | list _ => "list"
  | map _ => "map"

def isNull : Value → Bool
  | null => true
  | _ => false

def asNum : Value → Option F64
  | i64 n => some (F64.ofInt n.toInt)
  | u64 n => some (F64.ofInt n.toNat)
  | f64 f => some f
  | decimal units scale => some (F64.ofDecimal units.toInt scale)
  | _ => none

def numKey (v : Value) : ℕ := (v.asNum.map F64.canon).getD 0

def cmpNumeric (a b : Value) : Ordering :=
  (cmpExact a b).getD (compare a.numKey b.numKey)

def cmpBytes : Bytes → Bytes → Ordering
  | [], [] => .eq
  | [], _ :: _ => .lt
  | _ :: _, [] => .gt
  | a :: as, b :: bs => (compare a.toNat b.toNat).then (cmpBytes as bs)

mutual

def cmp : Value → Value → Ordering
  | null, b => compare 0 b.rank
  | bool x, b => match b with
    | bool y => compare x.toNat y.toNat
    | b => compare 1 b.rank
  | i64 n, b => if b.rank = 2 then cmpNumeric (i64 n) b else compare 2 b.rank
  | u64 n, b => if b.rank = 2 then cmpNumeric (u64 n) b else compare 2 b.rank
  | f64 f, b => if b.rank = 2 then cmpNumeric (f64 f) b else compare 2 b.rank
  | decimal u s, b => if b.rank = 2 then cmpNumeric (decimal u s) b else compare 2 b.rank
  | str x, b => match b with
    | str y => compare x y
    | b => compare 3 b.rank
  | bytes x, b => match b with
    | bytes y => cmpBytes x y
    | b => compare 4 b.rank
  | list xs, b => match b with
    | list ys => cmpList xs ys
    | b => compare 5 b.rank
  | map xs, b => match b with
    | map ys => cmpEntries xs ys
    | b => compare 6 b.rank
  | timestamp x, b => match b with
    | timestamp y => compare x.toInt y.toInt
    | b => compare 7 b.rank

def cmpList : List Value → List Value → Ordering
  | [], ys => if ys.isEmpty then .eq else .lt
  | x :: xs, ys => match ys with
    | [] => .gt
    | y :: ys => (cmp x y).then (cmpList xs ys)

def cmpEntries : List (String × Value) → List (String × Value) → Ordering
  | [], ys => if ys.isEmpty then .eq else .lt
  | (k, x) :: xs, ys => match ys with
    | [] => .gt
    | (j, y) :: ys => ((compare k j).then (cmp x y)).then (cmpEntries xs ys)

end

/-- `PartialEq for Value`: equality is the order saying `Equal`. -/
def Eqv (a b : Value) : Prop := a.cmp b = .eq

instance (a b : Value) : Decidable (Eqv a b) := inferInstanceAs (Decidable (a.cmp b = .eq))

mutual

def Ordered : Value → Prop
  | list items => OrderedItems items
  | map m => m.Pairwise (fun a b => a.1 < b.1) ∧ OrderedEntries m
  | _ => True

def OrderedItems : List Value → Prop
  | [] => True
  | v :: vs => Ordered v ∧ OrderedItems vs

def OrderedEntries : List (String × Value) → Prop
  | [] => True
  | (_, v) :: es => Ordered v ∧ OrderedEntries es

end

mutual

/-- How many lists and maps enclose the innermost value. -/
def nesting : Value → ℕ
  | list items => nestingItems items
  | map m => nestingEntries m
  | _ => 0

def nestingItems : List Value → ℕ
  | [] => 0
  | v :: vs => max (nesting v + 1) (nestingItems vs)

def nestingEntries : List (String × Value) → ℕ
  | [] => 0
  | (_, v) :: es => max (nesting v + 1) (nestingEntries es)

end

theorem cmpExact_self (a : Value) : (cmpExact a a).getD .eq = .eq := by
  unfold cmpExact
  cases a.exactUnits with
  | none => rfl
  | some p =>
    cases hl : lift (max p.2 p.2) p.1 p.2 with
    | none => simp [hl]
    | some x => simp [hl]

theorem cmpNumeric_self (a : Value) : cmpNumeric a a = .eq := by
  have h := cmpExact_self a
  unfold cmpNumeric
  cases hc : cmpExact a a with
  | none => simp
  | some o => simpa [hc] using h

theorem cmpBytes_self (b : Bytes) : cmpBytes b b = .eq := by
  induction b with
  | nil => rfl
  | cons x xs ih => simp [cmpBytes, ih]

mutual

theorem cmp_self : (v : Value) → cmp v v = .eq
  | null => by simp [cmp, rank]
  | bool _ | str _ | timestamp _ => by simp [cmp]
  | i64 _ | u64 _ | f64 _ | decimal _ _ => by simp [cmp, rank, cmpNumeric_self]
  | bytes b => by simp [cmp, cmpBytes_self]
  | list items => by simp [cmp, cmpList_self items]
  | map m => by simp [cmp, cmpEntries_self m]

theorem cmpList_self : (vs : List Value) → cmpList vs vs = .eq
  | [] => rfl
  | v :: vs => by simp [cmpList, cmp_self v, cmpList_self vs]

theorem cmpEntries_self : (es : List (String × Value)) → cmpEntries es es = .eq
  | [] => rfl
  | (_, v) :: es => by simp [cmpEntries, cmp_self v, cmpEntries_self es]

end

theorem Eqv.refl (v : Value) : Eqv v v := cmp_self v

end Value

/-- A value as the program can hold it: its maps are ordered. -/
abbrev OrdValue := {v : Value // v.Ordered}

end Adabt.Core
