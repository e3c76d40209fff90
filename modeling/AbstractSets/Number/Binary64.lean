/-!
# Double-precision numbers

Finite binary numbers with 53 significant bits, as exact dyadic fractions. A positive
fraction is rounded to the nearest of them, and to the even one if two are equally near.
Arithmetic is exact arithmetic followed by one rounding.
-/

namespace AbstractSets

/-- The quotient rounded to the nearest integer, a half to the even one. -/
def roundHalfEven (num den : Nat) : Nat :=
  let q := num / den
  let r := num % den
  if 2 * r < den then q
  else if den < 2 * r then q + 1
  else q + q % 2

structure Magnitude where
  significand : Nat
  exponent : Int
  deriving DecidableEq, Repr

structure Binary64 where
  negative : Bool
  magnitude : Magnitude
  deriving DecidableEq, Repr

namespace Magnitude

def minExponent : Int := -1074

def maxExponent : Int := 971

def zero : Magnitude := ⟨0, minExponent⟩

def num (x : Magnitude) : Nat := x.significand * Nat.pow 2 x.exponent.toNat

def den (x : Magnitude) : Nat := Nat.pow 2 (-x.exponent).toNat

/-- The largest `b` with `2 ^ b` at most `num / den`. -/
def binaryLog (num den : Nat) : Int :=
  let b : Int := num.log2 - den.log2
  if num * Nat.pow 2 (-b).toNat < den * Nat.pow 2 b.toNat then b - 1 else b

/-- The number nearest to `num / den`. There is none if that is out of range. -/
def ofRatio? (num den : Nat) : Option Magnitude :=
  if num = 0 then some zero
  else
    let q := max (binaryLog num den - 52) minExponent
    let m := roundHalfEven (num * Nat.pow 2 (-q).toNat) (den * Nat.pow 2 q.toNat)
    let x : Magnitude := if m = Nat.pow 2 53 then ⟨Nat.pow 2 52, q + 1⟩ else ⟨m, q⟩
    if maxExponent < x.exponent then none else some x

def mul? (x y : Magnitude) : Option Magnitude := ofRatio? (x.num * y.num) (x.den * y.den)

def div? (x y : Magnitude) : Option Magnitude := ofRatio? (x.num * y.den) (x.den * y.num)

def maxPower : Nat := 308

def powerOfTen? (k : Nat) : Option Magnitude := ofRatio? (Nat.pow 10 k) 1

/-- Divide by `10 ^ k`, by no more than the largest power of ten at a time. -/
def lower? (x : Magnitude) (k : Nat) : Option Magnitude :=
  if k ≤ maxPower then do x.div? (← powerOfTen? k)
  else if x.significand = 0 then some x
  else do
    let y ← x.div? (← powerOfTen? maxPower)
    y.lower? (k - maxPower)
termination_by k
decreasing_by
  have : 0 < maxPower := by decide
  omega

def raise? (x : Magnitude) (k : Nat) : Option Magnitude :=
  if k ≤ maxPower then do x.mul? (← powerOfTen? k)
  else if x.significand = 0 then some x
  else none

/-- The number for `digits * 10 ^ exponent`: the digits are rounded first, then the product
with the power of ten or the quotient by it. -/
def ofDecimal? (digits : Nat) (exponent : Int) : Option Magnitude := do
  let x ← ofRatio? digits 1
  if exponent < 0 then x.lower? (-exponent).toNat else x.raise? exponent.toNat

end Magnitude

end AbstractSets
