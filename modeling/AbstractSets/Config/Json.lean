import AbstractSets.Number.Binary64

/-!
# JSON values

The values a setting can be given as. A number is an integer if it is written as one and
fits 64 bits, with or without a sign; any other number is a double-precision one. The
members of an object are listed in the order of their names, each name once.
-/

namespace AbstractSets

inductive Json where
  | null
  | bool (b : Bool)
  | int (n : Int)
  | real (x : Binary64)
  | str (s : String)
  | arr (items : List Json)
  | obj (members : List (String × Json))
  deriving Inhabited, Repr

structure Numeral where
  negative : Bool
  whole : List Nat
  fraction : Option (List Nat)
  exponent : Option Int
  deriving DecidableEq, Repr

namespace Numeral

/-- Put digits after those of `n` as long as the result fits 64 bits, and count the digits
that are left. -/
def takeDigits (n : Nat) : List Nat → Nat × Nat
  | [] => (n, 0)
  | d :: ds => if 10 * n + d < UInt64.size then takeDigits (10 * n + d) ds else (n, ds.length + 1)

/-- The number as a double-precision one, if it is in range. Digits beyond what fits 64 bits
count only by their places. -/
def toBinary64? (a : Numeral) : Option Binary64 := do
  let fraction := a.fraction.getD []
  let (n, wholeLeft) := takeDigits 0 a.whole
  let (n, fractionLeft) := takeDigits n fraction
  let places : Int := fraction.length - fractionLeft
  let magnitude ← Magnitude.ofDecimal? n (wholeLeft - places + a.exponent.getD 0)
  return ⟨a.negative, magnitude⟩

/-- The integer a numeral stands for, if it is written as one and fits. A negative zero is
not an integer. -/
def toInt? (a : Numeral) : Option Int :=
  let (n, left) := takeDigits 0 a.whole
  if a.fraction.isSome || a.exponent.isSome || left ≠ 0 then none
  else if !a.negative then some n
  else if 0 < n ∧ n ≤ Nat.pow 2 63 then some (-n)
  else none

/-- The JSON value of a numeral. There is none if the number is out of range. -/
def toJson? (a : Numeral) : Option Json :=
  match a.toInt? with
  | some n => some (.int n)
  | none => a.toBinary64?.map .real

end Numeral

end AbstractSets
