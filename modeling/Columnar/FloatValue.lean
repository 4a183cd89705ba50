import Columnar.Word

/-!
# The exact value of a float

A finite float is a sign and a whole number of units `2 ^ exponent`. `FloatValue.ofFloat` shows a
float that way, so that rounding to a count and printing work on integers. The two roundings to
a count, `roundToCount` and `ceilToCount`, are total: NaN and everything below zero count as
nothing, and everything above 64 bits as the largest size.
-/

namespace Columnar

/-- The absolute value of a finite float, `mantissa * 2 ^ exponent`. -/
structure Binary where
  mantissa : Nat
  exponent : Int
deriving DecidableEq, Repr

/-- What a float is: no number, an infinity, or a signed binary fraction. -/
inductive FloatValue where
  | nan
  | infinity (negative : Bool)
  | finite (negative : Bool) (size : Binary)
deriving DecidableEq, Repr

namespace Binary

/-- The numerator of the value over `denominator`. -/
def numerator (b : Binary) : Nat := b.mantissa * Nat.pow 2 b.exponent.toNat

/-- A power of two that makes the value a fraction of natural numbers. -/
def denominator (b : Binary) : Nat := Nat.pow 2 (-b.exponent).toNat

/-- The nearest whole number; a half goes up. -/
def round (b : Binary) : Nat := (2 * b.numerator + b.denominator) / (2 * b.denominator)

/-- The least whole number that is not smaller. -/
def ceil (b : Binary) : Nat := (b.numerator + b.denominator - 1) / b.denominator

end Binary

namespace FloatValue

/-- Whether a model sign is the minus sign. -/
def isMinus : Float.Model.UnpackedFloat.Sign → Bool
  | .negative => true
  | .positive => false

/-- The value that the bits of a float stand for. -/
def ofFloat (x : Float) : FloatValue :=
  match x.toModel.unpack with
  | .notANumber => .nan
  | .infinity sign => .infinity (isMinus sign)
  | .zero sign => .finite (isMinus sign) ⟨0, 0⟩
  | .finite sign mantissa exponent _ => .finite (isMinus sign) ⟨mantissa, exponent⟩

/-- Rounds by `whole`, with NaN and negative values at zero and a bound of 64 bits above. -/
def toCount (whole : Binary → Nat) : FloatValue → Nat
  | .nan => 0
  | .infinity negative => if negative then 0 else maxSize
  | .finite negative size => if negative then 0 else min (whole size) maxSize

end FloatValue

/-- The nearest count to a float, a half going up. -/
def roundToCount (x : Float) : Nat := (FloatValue.ofFloat x).toCount Binary.round

/-- The least count that is not below a float. -/
def ceilToCount (x : Float) : Nat := (FloatValue.ofFloat x).toCount Binary.ceil

theorem FloatValue.toCount_le (whole : Binary → Nat) (v : FloatValue) :
    v.toCount whole ≤ maxSize := by
  cases v with
  | nan => exact Nat.zero_le _
  | infinity negative => cases negative <;> simp [toCount]
  | finite negative size =>
    cases negative
    · exact Nat.min_le_right ..
    · exact Nat.zero_le _

end Columnar
