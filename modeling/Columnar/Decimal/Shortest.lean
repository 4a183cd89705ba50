import Columnar.FloatValue

/-!
# The fewest digits that read back

A decimal reads back to a float when it lies in the interval of reals that round to it: from
halfway to the neighbour below to halfway to the neighbour above, both ends included when the
mantissa is even. `Binary.shortest` looks at ever finer decimal grids, from the one of the leading
digit on, and takes the first that has a multiple in the interval. The only candidates on a grid
are the two multiples next to the value; of two that read back the nearer is taken, and `Tie` says
which one when both are equally near.
-/

namespace Columnar

/-- The decimal number `digits * 10 ^ exponent`. -/
structure Decimal where
  digits : Nat
  exponent : Int
deriving DecidableEq, Repr

/-- Which of two equally near candidates is taken. -/
inductive Tie where
  | toEven
  | awayFromZero
deriving DecidableEq, Repr

namespace Decimal

/-- Moves the zeros at the end of the digits into the exponent. -/
def strip (d : Decimal) : Decimal :=
  if 0 < d.digits ∧ d.digits % 10 = 0 then strip ⟨d.digits / 10, d.exponent + 1⟩ else d
termination_by d.digits
decreasing_by omega

end Decimal

/-- A value on the grid of the multiples of a power of ten, in grid steps: the value is
`num / den`, and the reals that round to it lie between `low / (4 * den)` and
`high / (4 * den)`. -/
structure Grid where
  num : Nat
  den : Nat
  low : Nat
  high : Nat
  closed : Bool
deriving Repr

namespace Grid

/-- Whether a multiple of the grid step lies among the reals that round to the value. -/
def readsBack (g : Grid) (multiple : Nat) : Bool :=
  let point := 4 * multiple * g.den
  if g.closed then g.low ≤ point && point ≤ g.high else g.low < point && point < g.high

/-- The multiple next to the value that is nearer to it. -/
def nearer (g : Grid) (tie : Tie) : Nat :=
  let below := g.num / g.den
  match compare (2 * g.num) ((2 * below + 1) * g.den), tie with
  | .lt, _ => below
  | .gt, _ => below + 1
  | .eq, .toEven => below + below % 2
  | .eq, .awayFromZero => below + 1

/-- The multiple that stands for the value, if one next to it reads back. -/
def choose (g : Grid) (tie : Tie) : Option Nat :=
  let below := g.num / g.den
  match g.readsBack below, g.readsBack (below + 1) with
  | true, true => some (g.nearer tie)
  | true, false => some below
  | false, true => some (below + 1)
  | false, false => none

end Grid

namespace Binary

/-- Whether the neighbour below is half as far as the neighbour above. That is so at the powers of
two, whose mantissa is `2 ^ 52`, except among the smallest floats. -/
def narrowBelow (b : Binary) : Bool := b.mantissa == 4503599627370496 && -1074 < b.exponent

/-- The value on the grid of the multiples of `10 ^ step`. -/
def onGrid (b : Binary) (step : Int) : Grid :=
  let fine := Nat.pow 10 (-step).toNat
  let unit := Nat.pow 2 b.exponent.toNat
  { num := b.numerator * fine
    den := b.denominator * Nat.pow 10 step.toNat
    low := (4 * b.numerator - (if b.narrowBelow then 1 else 2) * unit) * fine
    high := (4 * b.numerator + 2 * unit) * fine
    closed := b.mantissa % 2 == 0 }

def isBelowPower (b : Binary) (power : Int) : Bool :=
  b.numerator * Nat.pow 10 (-power).toNat < b.denominator * Nat.pow 10 power.toNat

/-- The exponent of the leading decimal digit of a value that is not zero. The binary logarithm
gives it up to one step in either direction. -/
def leadingExponent (b : Binary) : Int :=
  let guess := (b.mantissa.log2 + b.exponent) * 30103 / 100000 - 1
  match [guess, guess + 1].find? fun p => b.isBelowPower (p + 1) with
  | some p => p
  | none => guess + 2

def exactDecimal (b : Binary) : Decimal :=
  if 0 ≤ b.exponent then ⟨b.numerator, 0⟩
  else ⟨b.mantissa * Nat.pow 5 (-b.exponent).toNat, b.exponent⟩

/-- The decimal with the fewest digits that reads back to the value. Seventeen digits are enough
for every float; a value that no such decimal stands for would keep all its digits. -/
def shortest (b : Binary) (tie : Tie) : Decimal :=
  if b.mantissa = 0 then ⟨0, 0⟩ else
    let lead := b.leadingExponent
    let found := (List.range 17).findSome? fun (n : Nat) =>
      ((b.onGrid (lead - n)).choose tie).map fun digits => Decimal.mk digits (lead - n)
    (found.getD b.exactDecimal).strip

end Binary

end Columnar
