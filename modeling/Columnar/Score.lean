import Columnar.Word

/-!
# Scores

A column is worth compressing when the uncompressed size is strictly more than the compressed
one, measured by their ratio as floats.
-/

namespace Columnar

/-- Two sizes of the same data. -/
structure Score where
  uncompressed : Nat
  compressed : Nat
deriving DecidableEq, Repr

namespace Score

/-- The compression ratio; one if the compressed size is zero. -/
def ratio (s : Score) : Float :=
  if 0 < s.compressed then asFloat s.uncompressed / asFloat s.compressed else 1

/-- Whether compression pays. -/
def isBeneficial (s : Score) : Bool := 1 < s.ratio

end Score

end Columnar
