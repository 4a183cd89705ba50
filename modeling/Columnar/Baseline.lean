import Columnar.Error

/-!
# Baselines

A baseline prices the data of a column group that is left uncompressed, and says when a block is
better stored sparse. Classification weighs every encoding against one. A baseline may find that
an answer is out of range.
-/

namespace Columnar

/-- The price of uncompressed storage. -/
structure Baseline where
  /-- The bytes of an uncompressed column group, from its rows, its columns and its density. -/
  uncompressedSize : (rows cols : Nat) → (density : Float) → Except PlanError Nat
  /-- Whether a block with that many listed cells is better stored sparse. -/
  prefersSparse : (rows cols nonzeros : Nat) → Except PlanError Bool

end Columnar
