import Adabt.Core.Value
import Mathlib.Data.Nat.Sqrt

/-! # Arithmetic on values

Exact where both sides are exact and nothing leaves 128 bits; otherwise in
double precision, and only when the result is finite. -/

set_option autoImplicit false

namespace Adabt.Core

namespace F64

def mag (f : F64) : ℕ := f.bits.toNat % signBit

def negative (f : F64) : Bool := signBit ≤ f.bits.toNat

def isInf (f : F64) : Bool := f.mag = infinity

def isFinite (f : F64) : Bool := f.mag < infinity

def nan : F64 := ⟨0x7ff8000000000000⟩

/-- The exact value of a finite double, as a signed fraction. -/
def signedFraction (f : F64) : Int × ℕ :=
  let x := fraction f.mag
  (if f.negative then -(x.1 : Int) else x.1, x.2)

/-- The sum of two finite doubles; an exact zero is negative only for two negative zeros. -/
def addFinite (a b : F64) : F64 :=
  let x := a.signedFraction
  let y := b.signedFraction
  let num := x.1 * y.2 + y.1 * x.2
  if num = 0 then ofMag (a.negative && b.negative) 0
  else ofMag (num < 0) (roundMag num.natAbs (x.2 * y.2))

def add (a b : F64) : F64 :=
  if a.isNan || b.isNan then nan
  else if a.isInf then (if b.isInf && a.negative != b.negative then nan else a)
  else if b.isInf then b
  else addFinite a b

def neg (f : F64) : F64 := ofMag (!f.negative) f.mag

def sub (a b : F64) : F64 := add a b.neg

def mul (a b : F64) : F64 :=
  let sign := a.negative != b.negative
  if a.isNan || b.isNan then nan
  else if a.isInf || b.isInf then (if a.isZero || b.isZero then nan else ofMag sign infinity)
  else ofMag sign (mulMag a.mag b.mag)

def div (a b : F64) : F64 :=
  let sign := a.negative != b.negative
  if a.isNan || b.isNan then nan
  else if a.isInf then (if b.isInf then nan else ofMag sign infinity)
  else if b.isInf then ofMag sign 0
  else if b.isZero then (if a.isZero then nan else ofMag sign infinity)
  else ofMag sign (divMag a.mag b.mag)

end F64

inductive ArithOp where
  | add
  | sub
  | mul
  | div
  deriving DecidableEq, Repr

namespace ArithOp

/-- The operation on units of one scale, in 128 bits. -/
def exact (op : ArithOp) (scale : UInt8) (a b : Int) : Option (BitVec 128) :=
  match op with
  | add => checkedI128 (a + b)
  | sub => checkedI128 (a - b)
  -- The product of two scaled values has the scale twice.
  | mul => do
    let p ← checkedI128 (a * b)
    let factor ← checkedPow10 scale.toNat
    checkedI128 (p.toInt.tdiv factor)
  | div => do
    if b = 0 then none
    else
      let factor ← checkedPow10 scale.toNat
      let n ← checkedI128 (a * factor)
      checkedI128 (n.toInt.tdiv b)

def float (op : ArithOp) (a b : F64) : Option F64 :=
  match op with
  | add => some (a.add b)
  | sub => some (a.sub b)
  | mul => some (a.mul b)
  | div => if b.isZero then none else some (a.div b)

end ArithOp

open Value in
/-- The exact result, if both sides are exact and nothing overflows on the way. -/
def exactArith (op : ArithOp) (a b : Value) : Option Value := do
  let (au, asc) ← a.exactUnits
  let (bu, bsc) ← b.exactUnits
  let target := max asc bsc
  let x ← lift target au asc
  let y ← lift target bu bsc
  let units ← op.exact target x.toInt y.toInt
  return decimal units target

open Value in
def floatArith (op : ArithOp) (a b : Value) : Option Value := do
  let x ← a.asNum
  let y ← b.asNum
  let r ← op.float x y
  if r.isFinite then return f64 r else none

def checkedArith (op : ArithOp) (a b : Value) : Option Value :=
  (exactArith op a b).or (floatArith op a b)

end Adabt.Core

/-! ## Casts, orders and roots of doubles

Casts to `u64` saturate. A text with a fixed number of places rounds the exact
value, ties to even. The rest is what the estimates of the optimizer are computed
with. -/

namespace Adabt.Core.F64

/-- `a > b`, false when either is not a number. -/
def gt (a b : F64) : Bool := !a.isNan && !b.isNan && b.canon < a.canon

/-- `f64::abs`. -/
def abs (f : F64) : F64 := ofMag false f.mag

/-- The cast of an integral quotient, by way of the value itself. -/
def castU64 (f : F64) (quotient : ℕ × ℕ → ℕ) : ℕ :=
  if f.isNan || f.negative then 0
  else if f.isInf then 2 ^ 64 - 1
  else min (quotient (fraction f.mag)) (2 ^ 64 - 1)

/-- `f.round() as u64`. -/
def roundU64 (f : F64) : ℕ := f.castU64 fun x => (2 * x.1 + x.2) / (2 * x.2)

/-- `f.ceil() as u64`. -/
def ceilU64 (f : F64) : ℕ := f.castU64 fun x => (x.1 + x.2 - 1) / x.2

/-- The digits of a number below a power of ten, with leading zeros. -/
def padded (places n : ℕ) : String :=
  let digits := toString n
  "".pushn '0' (places - digits.length) ++ digits

/-- With this many places after the point. -/
def fixed (f : F64) (places : ℕ) : String :=
  if f.isNan then "NaN"
  else
    let sign := if f.negative then "-" else ""
    if f.isInf then sign ++ "inf"
    else
      let x := fraction f.mag
      let n := roundHalfEven (x.1 * 10 ^ places) x.2
      sign ++ toString (n / 10 ^ places) ++
        if places = 0 then "" else "." ++ padded places (n % 10 ^ places)

end Adabt.Core.F64

namespace Adabt.Core.F64

/-- The double nearest to a decimal that the code writes out. -/
def lit (num den : ℕ) : F64 := ofMag false (roundMag num den)

def zero : F64 := lit 0 1

def one : F64 := lit 1 1

def negInfinity : F64 := ofMag true infinity

def lt (a b : F64) : Bool := gt b a

def ge (a b : F64) : Bool := !a.isNan && !b.isNan && b.canon ≤ a.canon

def beq (a b : F64) : Bool := !a.isNan && !b.isNan && a.canon = b.canon

/-- The order of `total_cmp`, as a key. -/
def totalKey (f : F64) : ℤ := if f.negative then -(f.mag : ℤ) - 1 else f.mag

def max (a b : F64) : F64 := if a.isNan then b else if b.isNan then a else if lt a b then b else a

def min (a b : F64) : F64 := if a.isNan then b else if b.isNan then a else if lt b a then b else a

def clamp (f lo hi : F64) : F64 := if lt f lo then lo else if gt f hi then hi else f

/-- The nearest double to the root: enough bits of it, and one for what is left. -/
def sqrt (f : F64) : F64 :=
  if f.isNan then nan
  else if f.isZero then f
  else if f.negative then nan
  else if f.isInf then f
  else
    let x := fraction f.mag
    let scaled := x.1 * 4 ^ 640 / x.2
    let root := Nat.sqrt scaled
    let rest := if root * root = scaled ∧ x.1 * 4 ^ 640 % x.2 = 0 then 0 else 1
    ofMag false (roundMag (2 * root + rest) (2 ^ 641))

/-- `f as u8`. -/
def castU8 (f : F64) : ℕ := Nat.min (f.castU64 fun x => x.1 / x.2) 255

/-- `f as i64`. -/
def castI64 (f : F64) : ℤ :=
  if f.isNan then 0
  else if f.isInf then (if f.negative then -2 ^ 63 else 2 ^ 63 - 1)
  else
    let x := f.signedFraction
    Max.max (-2 ^ 63) (Min.min (x.1.tdiv x.2) (2 ^ 63 - 1))

/-- With a sign before positive numbers too. -/
def fixedSigned (f : F64) (places : ℕ) : String :=
  if f.isNan || f.negative then f.fixed places else "+" ++ f.fixed places

def sum (fs : List F64) : F64 := fs.foldl add zero

example : sqrt (ofInt 2) = ⟨0x3ff6a09e667f3bcd⟩ := by decide +kernel

example : lit 5 100 = ⟨0x3fa999999999999a⟩ := by decide +kernel

end Adabt.Core.F64
