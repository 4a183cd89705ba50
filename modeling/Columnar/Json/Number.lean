import Columnar.Decimal.Shortest

/-!
# JSON numbers

A number is kept as it is written: sign, whole digits, digits behind the point, and exponent.
`JsonNumber.toNat?` reads a plain count. `JsonNumber.toFloat?` reads a float from the leading
digits that fit 64 bits and one power of ten: digits of the whole part beyond them count into the
exponent, digits behind the point beyond them are dropped, and the significand is multiplied or
divided by the power of ten as a float. `jsonText` writes a float so that the shortest digits
identify it.
-/

namespace Columnar

/-- A number as it is written. The digits are most significant first. -/
structure JsonNumber where
  negative : Bool
  whole : List Nat
  fraction : Option (List Nat)
  exponent : Option Int
deriving DecidableEq, Repr

namespace JsonNumber

/-- The number that a list of digits writes. -/
def ofDigits (digits : List Nat) : Nat := digits.foldl (fun n d => 10 * n + d) 0

/-- The value of a count: digits alone, without sign, point and exponent. -/
def toNat? (n : JsonNumber) : Option Nat :=
  match n with
  | ⟨false, whole, none, none⟩ => some (ofDigits whole)
  | _ => none

/-- A significand that takes leading digits as long as it fits 64 bits, and the digits left. -/
def takeFitting (significand : Nat) : List Nat → Nat × List Nat
  | [] => (significand, [])
  | d :: rest =>
    if 10 * significand + d ≤ maxSize then takeFitting (10 * significand + d) rest
    else (significand, d :: rest)

/-- The significand and the exponent of the power of ten that stand for the digits. -/
def parts (n : JsonNumber) : Nat × Int :=
  let (significand, wholeLeft) := takeFitting 0 n.whole
  let fraction := n.fraction.getD []
  let (significand, fractionLeft) := takeFitting significand fraction
  let fractionTaken : Int := fraction.length - fractionLeft.length
  (significand, wholeLeft.length - fractionTaken + n.exponent.getD 0)

/-- The float nearest to a power of ten. -/
def powerOfTen (power : Nat) : Float := Float.ofScientific 1 false power

/-- Divides by a power of ten, in steps of `10 ^ 308` until the quotient is zero. -/
def divideByPower (x : Float) (power : Nat) : Float :=
  if power ≤ 308 then x / powerOfTen power
  else if x == 0 then x
  else divideByPower (x / powerOfTen 308) (power - 308)
termination_by power

/-- Multiplies by a power of ten. Nothing but zero reaches beyond the largest float. -/
def multiplyByPower (x : Float) (power : Nat) : Option Float :=
  if power ≤ 308 then
    let product := x * powerOfTen power
    if product.isInf then none else some product
  else if x == 0 then some x
  else none

/-- The float that a number stands for, unless it is too large for one. -/
def toFloat? (n : JsonNumber) : Option Float :=
  let (significand, power) := n.parts
  let size :=
    if 0 ≤ power then multiplyByPower (asFloat significand) power.toNat
    else some (divideByPower (asFloat significand) (-power).toNat)
  size.map fun x => if n.negative then -x else x

end JsonNumber

end Columnar
