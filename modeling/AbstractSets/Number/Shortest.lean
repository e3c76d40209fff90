import AbstractSets.Number.Binary64

/-!
# The shortest decimal text of a number

A number is written with the fewest digits that read back as that number; of several such
decimals the nearest is taken, and on a tie the one with an even last digit. Numbers of
middling size are written out, with at least one digit after the point; very large and
very small ones have an exponent with its sign.
-/

namespace AbstractSets

structure Decimal where
  digits : Nat
  exponent : Int
  deriving DecidableEq, Repr

namespace Decimal

def compareBinary (d : Decimal) (n : Nat) (j : Int) : Ordering :=
  compare (d.digits * Nat.pow 10 d.exponent.toNat * Nat.pow 2 (-j).toNat)
    (n * Nat.pow 2 j.toNat * Nat.pow 10 (-d.exponent).toNat)

end Decimal

namespace Magnitude

/-- Whether a decimal is among the reals that round to `x`: those between the midpoints to
the two neighbours of `x`, with the midpoints if the significand is even. Below a power of
two the neighbour is only half as far away. -/
def readsBack (x : Magnitude) (d : Decimal) : Bool :=
  let m := 4 * x.significand
  let lo := if x.significand = Nat.pow 2 52 ∧ minExponent < x.exponent then m - 1 else m - 2
  let below := d.compareBinary lo (x.exponent - 2)
  let above := d.compareBinary (m + 2) (x.exponent - 2)
  let even := x.significand % 2 == 0
  (below == .gt || even && below == .eq) && (above == .lt || even && above == .eq)

/-- The exponent of the first decimal digit of a positive number. It is one of a few next
to the estimate from the binary exponent. -/
def leadingExponent (x : Magnitude) : Int :=
  let estimate := (binaryLog x.num x.den * 30103).fdiv 100000
  let candidates := [estimate + 1, estimate, estimate - 1]
  (candidates.find? fun e =>
    Decimal.compareBinary ⟨1, e⟩ x.significand x.exponent != .gt).getD estimate

/-- The decimal nearest to `x` among the multiples of `10 ^ exponent` on both sides of it
that read back as `x`. -/
def onGrid? (x : Magnitude) (exponent : Int) : Option Decimal :=
  let num := x.num * Nat.pow 10 (-exponent).toNat
  let den := x.den * Nat.pow 10 exponent.toNat
  let lower : Decimal := ⟨num / den, exponent⟩
  let upper : Decimal := ⟨num / den + 1, exponent⟩
  match x.readsBack lower, x.readsBack upper with
  | true, true => some ⟨roundHalfEven num den, exponent⟩
  | true, false => some lower
  | false, true => some upper
  | false, false => none

/-- The shortest decimal that reads back as the positive number `x`. Seventeen digits are
always enough. -/
def shortest (x : Magnitude) : Decimal :=
  let e := x.leadingExponent
  let grids := (List.range 17).map fun (n : Nat) => e - n
  (grids.findSome? x.onGrid?).getD ⟨x.num * Nat.pow 10 17 / x.den, -17⟩

end Magnitude

namespace Decimal

def significantDigits (d : Decimal) : List Char :=
  ((Nat.toDigits 10 d.digits).reverse.dropWhile (· == '0')).reverse

def leadingExponent (d : Decimal) : Int :=
  d.exponent + (Nat.toDigits 10 d.digits).length - 1

def isPlain (e : Int) : Bool := -5 ≤ e && e ≤ 15

def plainText (digits : List Char) (e : Int) : List Char :=
  if e < 0 then ['0', '.'] ++ List.replicate (-e - 1).toNat '0' ++ digits
  else
    let whole := e.toNat + 1
    let rest := digits.drop whole
    digits.take whole ++ List.replicate (whole - digits.length) '0' ++ ['.'] ++
      (if rest.isEmpty then ['0'] else rest)

def exponentText (digits : List Char) (e : Int) : List Char :=
  let rest := digits.drop 1
  digits.take 1 ++ (if rest.isEmpty then [] else '.' :: rest) ++
    ['e', if e < 0 then '-' else '+'] ++ Nat.toDigits 10 e.natAbs

def text (d : Decimal) : String :=
  let e := d.leadingExponent
  String.ofList
    (if isPlain e then plainText d.significantDigits e
     else exponentText d.significantDigits e)

end Decimal

namespace Binary64

def text (x : Binary64) : String :=
  (if x.negative then "-" else "") ++
    (if x.magnitude.significand = 0 then "0.0" else x.magnitude.shortest.text)

end Binary64

end AbstractSets
