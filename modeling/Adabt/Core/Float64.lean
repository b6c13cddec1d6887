import Mathlib.Algebra.Group.Nat.Defs

/-! # Double-precision values as bits

The engine only stores, widens and orders `f64` values. A value is its IEEE bit
pattern; integer widening and the decimal quotient round to nearest, ties to
even, and `canon` is the order key of `canon_f64`. -/

set_option autoImplicit false

namespace Adabt.Core

structure F64 where
  bits : UInt64
  deriving DecidableEq, Repr

namespace F64

def hidden : ℕ := 2 ^ 52

def infinity : ℕ := 0x7ff0000000000000

def signBit : ℕ := 2 ^ 63

def roundHalfEven (n d : ℕ) : ℕ :=
  let q := n / d
  let r := n % d
  if d < 2 * r ∨ (2 * r = d ∧ q % 2 = 1) then q + 1 else q

def shifted (num den : ℕ) (e : Int) : ℕ × ℕ :=
  if 0 ≤ e then (num, den * 2 ^ e.toNat) else (num * 2 ^ (-e).toNat, den)

/-- Magnitude bits of the double nearest to `num / den`. -/
def roundMag (num den : ℕ) : ℕ :=
  if num = 0 then 0 else
    let e1 : Int := (Nat.log2 num : Int) - Nat.log2 den - 53
    let low := shifted num den e1
    let e2 := if 2 * hidden ≤ low.1 / low.2 then e1 + 1 else e1
    let e := max e2 (-1074)
    let s := shifted num den e
    -- The exponent field absorbs both the hidden bit and a rounding carry.
    min ((e + 1074).toNat * hidden + roundHalfEven s.1 s.2) infinity

/-- The exact value of finite magnitude bits, as a fraction. -/
def fraction (m : ℕ) : ℕ × ℕ :=
  if m / hidden = 0 then (m, 2 ^ 1074)
  else
    let e : Int := (m / hidden : Int) - 1075
    if 0 ≤ e then ((hidden + m % hidden) * 2 ^ e.toNat, 1)
    else (hidden + m % hidden, 2 ^ (-e).toNat)

def mulMag (a b : ℕ) : ℕ :=
  let x := fraction a
  let y := fraction b
  roundMag (x.1 * y.1) (x.2 * y.2)

def divMag (a b : ℕ) : ℕ :=
  let x := fraction a
  let y := fraction b
  roundMag (x.1 * y.2) (x.2 * y.1)

def powLoop : ℕ → ℕ → ℕ → ℕ → ℕ
  | 0, _, _, r => r
  | fuel + 1, b, a, r =>
    let r := if b % 2 = 1 then mulMag r a else r
    if b / 2 = 0 then r else powLoop fuel (b / 2) (mulMag a a) r

/-- `10f64.powi(k)` by repeated squaring; a `u8` exponent has eight bits. -/
def powi10 (k : UInt8) : ℕ := powLoop 8 k.toNat (roundMag 10 1) (roundMag 1 1)

def ofMag (negative : Bool) (m : ℕ) : F64 :=
  ⟨UInt64.ofNat (if negative then signBit + m else m)⟩

/-- The cast of an integer to `f64`. -/
def ofInt (n : Int) : F64 := ofMag (n < 0) (roundMag n.natAbs 1)

/-- `units as f64 / 10f64.powi(scale)`. -/
def ofDecimal (units : Int) (scale : UInt8) : F64 :=
  ofMag (units < 0) (divMag (roundMag units.natAbs 1) (powi10 scale))

def isNan (f : F64) : Bool := infinity < f.bits.toNat % signBit

def isZero (f : F64) : Bool := f.bits.toNat % signBit = 0

def canonical (f : F64) : ℕ :=
  if f.isNan then 0x7ff8000000000000 else if f.isZero then 0 else f.bits.toNat

/-- `canon_f64`: flip the sign bit of positives and every bit of negatives. -/
def canon (f : F64) : ℕ :=
  let bits := f.canonical
  if signBit ≤ bits then 2 ^ 64 - 1 - bits else bits + signBit

example : (ofInt (2 ^ 53 + 1)).bits = 0x4340000000000000 := by decide

end F64

end Adabt.Core
