import Columnar.Decimal.Shortest

/-!
# Decimal notation

Three ways to write a float as text. `plainText` is the form used inside messages: the fewest
digits that read back, always positional. `fixedText` gives a set number of places of the exact
binary value. `Decimal.scientific` is the form with an exponent that very small numbers take in a
data format.
-/

namespace Columnar

def zeros (count : Nat) : String := String.ofList (List.replicate count '0')

/-- A digit text with its last `places` digits behind a point, padded so that at least one digit
stands before it. -/
def withPoint (digits : String) (places : Nat) : String :=
  let padded := (zeros (places + 1 - digits.length) ++ digits).toList
  let whole := padded.length - places
  String.ofList (padded.take whole) ++ "." ++ String.ofList (padded.drop whole)

/-- The minus sign of a negative value. -/
def signText (negative : Bool) : String := if negative then "-" else ""

namespace Decimal

/-- Positional notation without an exponent; a whole number has no point. -/
def positional (d : Decimal) : String :=
  if d.digits = 0 then "0"
  else if 0 ≤ d.exponent then toString d.digits ++ zeros d.exponent.toNat
  else withPoint (toString d.digits) (-d.exponent).toNat

def leading (d : Decimal) : Int := (toString d.digits).length - 1 + d.exponent

/-- One digit before the point, and the exponent of that digit; a lone digit has no point. -/
def scientific (d : Decimal) : String :=
  let digits := toString d.digits
  let mantissa := if digits.length = 1 then digits else withPoint digits (digits.length - 1)
  mantissa ++ "e" ++ toString d.leading

end Decimal

/-- A float inside a message: the fewest digits that read back, the upper one of two equally near
texts, and never an exponent. -/
def plainText (x : Float) : String :=
  match FloatValue.ofFloat x with
  | .nan => "NaN"
  | .infinity negative => signText negative ++ "inf"
  | .finite negative size => signText negative ++ (size.shortest .awayFromZero).positional

/-- The quotient of two numbers, rounded to the nearest whole number; a half goes to the even
neighbour. -/
def roundDivEven (num den : Nat) : Nat :=
  let below := num / den
  match compare (2 * (num % den)) den with
  | .lt => below
  | .gt => below + 1
  | .eq => below + below % 2

/-- The exact value of a float with a set number of places. A negative value that rounds to zero
keeps its sign. -/
def fixedText (places : Nat) (x : Float) : String :=
  match FloatValue.ofFloat x with
  | .nan => "NaN"
  | .infinity negative => signText negative ++ "inf"
  | .finite negative size =>
    let units := roundDivEven (size.numerator * Nat.pow 10 places) size.denominator
    signText negative ++ withPoint (toString units) places

end Columnar
