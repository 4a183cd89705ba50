import Columnar.Baseline
import Columnar.Counter
import Columnar.Encoding
import Columnar.Factors

/-!
# Footprints

The bytes that a column group takes in memory. Arrays of bytes, codes and pointers carry a header
and are padded to eight bytes; a dictionary holds a float for each cell of a tuple. Encoded groups
are priced with sums that stop at `maxSize`. An uncompressed group is one block behind a reference,
dense or sparse, whichever is smaller for few enough listed cells. The padding of an array and the
headers in front of a block are checked sums: on top of a number that stopped at `maxSize` they
are out of range.
-/

namespace Columnar.Footprint

/-- The header of a block. -/
def blockHeader : Nat := 44

/-- The header of the rows of a sparse block. -/
def sparseHeader : Nat := 16

/-- A listed cell of a sparse block: its value and its column. -/
def sparseEntry : Nat := 12

/-- The reference to an array and the array's header. -/
def arrayHeader : Nat := 28

/-- The most tuples that a code of one byte tells apart. -/
def maxDict1 : Nat := 255

/-- The most tuples that a code of two bytes tells apart, with one code kept back. -/
def maxDict2 : Nat := 65534

/-- The share of listed cells below which a sparse block is considered. -/
def sparseShare : Float := 0.4

/-- The bytes up to the next multiple of eight. -/
def padTo8 (bytes : Nat) : Except PlanError Nat := plus maxSize bytes ((8 - bytes % 8) % 8)

/-- An array of elements that are narrower than eight bytes. The first four bytes of payload fill
up the header. -/
def arrayCost (length elemBytes : Nat) : Except PlanError Nat := do
  let payload := satMul length elemBytes
  if payload ≤ 4 then return arrayHeader + 4
  let padded ← padTo8 (payload - 4)
  return satAdd (satAdd arrayHeader 4) padded

/-- An array of floats, which begins on a multiple of eight bytes. -/
def floatArrayCost (length : Nat) : Nat := satAdd (satAdd arrayHeader 4) (satMul length 8)

/-- What every column group carries: its column ids, its row count and flags. -/
def groupOverhead (groupCols : Nat) : Except PlanError Nat := do
  plus maxSize 24 (← arrayCost groupCols 4)

/-- A column group with its dictionary of tuples. -/
def valueCost (groupCols vals : Nat) : Except PlanError Nat := do
  let overhead ← groupOverhead groupCols
  return satAdd overhead (floatArrayCost (vals * groupCols))

/-! ### Uncompressed blocks -/

def denseSize (rows cols : Nat) : Nat := satAdd blockHeader (satMul (rows * cols) 8)

def sparseSize (nonzeros : Nat) : Except PlanError Nat :=
  plus maxSize (blockHeader + sparseHeader) (satMul nonzeros sparseEntry)

/-- Whether a sparse block is below the turning point and smaller than a dense one. A block
without cells is sparse. -/
def prefersSparse (rows cols nonzeros : Nat) : Except PlanError Bool := do
  let cells := rows * cols
  if cells = 0 then return true
  if asFloat nonzeros / asFloat cells < sparseShare then
    let sparse ← sparseSize nonzeros
    return sparse < denseSize rows cols
  return false

/-- A density held between zero and one; NaN stays. -/
def clampShare (density : Float) : Float :=
  if density < 0 then 0 else if 1 < density then 1 else density

/-- The number of listed cells of a block of the given density. -/
def listedCells (rows cols : Nat) (density : Float) : Nat :=
  roundToCount (clampShare density * asFloat (rows * cols))

/-- The bytes of a block alone. -/
def blockSize (rows cols : Nat) (density : Float) : Except PlanError Nat := do
  let nonzeros := listedCells rows cols density
  if nonzeros = 0 then return blockHeader
  if ← prefersSparse rows cols nonzeros then sparseSize nonzeros
  else return denseSize rows cols

/-- The bytes of an uncompressed column group: what every group carries, a reference, a block. -/
def uncompressedSize (rows cols : Nat) (density : Float) : Except PlanError Nat := do
  let overhead ← plus maxSize (← groupOverhead cols) 8
  plus maxSize overhead (← blockSize rows cols density)

def baseline : Baseline := ⟨uncompressedSize, prefersSparse⟩

/-! ### Encoded groups -/

/-- The bytes of a group under a dictionary with codes of some bytes, for at most `most` tuples. -/
def dictSize (most codeBytes : Nat) (f : Factors) : Except PlanError Nat := do
  if most < f.vals then return maxSize
  let value ← valueCost f.groupCols f.vals
  return satAdd value (← arrayCost f.rows codeBytes)

/-- The bytes of a group as lists of numbers of two bytes, with a pointer for each tuple. -/
def listsSize (numbers : Nat) (f : Factors) : Except PlanError Nat := do
  let value ← valueCost f.groupCols f.vals
  let pointers ← arrayCost (f.vals + 1) 4
  return satAdd (satAdd value pointers) (← arrayCost numbers 2)

/-- The bytes of a group under an encoding. Runs are listed by their starts and their lengths,
offset lists with a number for each segment. -/
def sizeOf (e : Encoding) (f : Factors) : Except PlanError Nat :=
  match e with
  | .dict1 => dictSize maxDict1 1 f
  | .dict2 => dictSize maxDict2 2 f
  | .runLength => listsSize (2 * f.runs) f
  | .offsetList => listsSize (satAdd f.offs f.segs) f
  | .uncompressed => uncompressedSize f.rows f.groupCols f.density

end Columnar.Footprint
