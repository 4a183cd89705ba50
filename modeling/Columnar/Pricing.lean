import Columnar.Footprint

/-!
# Priced column groups

A `SizeModel` prices a column group under one encoding, and may fail. `Pricing.ofFactors` asks it
for every encoding once. Offset lists only pay above twice the block size of tuples: up to there
they count as infeasible, and the model is not asked.
-/

namespace Columnar

/-- The price of a column group under an encoding. -/
abbrev SizeModel := Encoding → Factors → Except PlanError Nat

/-- The model of in-memory footprints. -/
def SizeModel.footprint : SizeModel := Footprint.sizeOf

/-- A column group with its size under every encoding. -/
structure Pricing where
  factors : Factors
  sizes : EncodingSizes
deriving DecidableEq, Repr

namespace Pricing

/-- Whether offset lists are left unpriced for a number of tuples. -/
def skipsOffsetList (vals blockSize : Nat) : Bool := vals ≤ 2 * blockSize

/-- The sizes that `ask` answers, which may have effects besides. -/
def priceAll {m : Type → Type} [Monad m] (vals blockSize : Nat) (ask : Encoding → m Nat) :
    m EncodingSizes :=
  PerEncoding.build fun e =>
    if e = .offsetList ∧ skipsOffsetList vals blockSize then pure maxSize else ask e

def ofFactors (factors : Factors) (model : SizeModel) (blockSize : Nat) :
    Except PlanError Pricing := do
  let sizes ← priceAll factors.vals blockSize fun e => model e factors
  return ⟨factors, sizes⟩

def cardinality (p : Pricing) : Nat := p.factors.vals

def nonzeros (p : Pricing) : Nat := p.factors.offs

def minSize (p : Pricing) : Nat := p.sizes.cheapest.2

def bestEncoding (p : Pricing) : Encoding := p.sizes.cheapest.1

end Pricing

end Columnar
