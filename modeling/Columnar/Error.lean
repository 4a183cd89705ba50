import Columnar.Decimal.Notation

/-!
# Failures

A failure is a cause, and `PlanError.message` is the one place where causes are worded. Each
kind of failure that a collaborator may raise on its own (a bitmap extractor, a size model) has a
constructor for a text of the collaborator's choice.
-/

namespace Columnar

/-- Why a configuration is refused. -/
inductive ConfigFault where
  | samplingRatio (ratio : Float)
  | noThreads
  | zeroBlockSize
  | other (text : String)
deriving DecidableEq, Repr

/-- Why an argument is refused. -/
inductive ArgumentFault where
  | dimensions (rows cols : Nat)
  | cellCount (rows cols actual : Nat)
  | columnLength (column actual expected : Nat)
  | valueCount (values tuples width : Nat)
  | noOccurrences (tuple : Nat)
  | unorderedOffsets (tuple : Nat)
  | emptySubset
  | columnRange (column cols : Nat)
  | rowRange (row rows : Nat)
  | other (text : String)
deriving DecidableEq, Repr

/-- Why a bitmap is refused or cannot be had. -/
inductive BitmapFault where
  | outsideSample (offset sampleSize : Nat)
  | other (text : String)
deriving DecidableEq, Repr

/-- A failure of planning. `crowded` is the breach of a caller's promise: a sampled bitmap that
lists more occurrences than the table has rows. `overflow` is a number that its counter cannot
hold. -/
inductive PlanError where
  | invalidConfig (fault : ConfigFault)
  | invalidArgument (fault : ArgumentFault)
  | unsupported (text : String)
  | bitmap (fault : BitmapFault)
  | sizeModel (text : String)
  | worker (text : String)
  | unreadable
  | crowded (occurrences rows : Nat)
  | overflow
deriving DecidableEq, Repr

def ConfigFault.message : ConfigFault → String
  | .samplingRatio ratio => s!"sampling ratio must be in (0, 1], got {plainText ratio}"
  | .noThreads => "thread count must be at least 1"
  | .zeroBlockSize => "block size must be positive"
  | .other text => text

def ArgumentFault.message : ArgumentFault → String
  | .dimensions rows cols => s!"table dimensions {rows}x{cols} exceed the u32 range"
  | .cellCount rows cols actual =>
    s!"expected {rows * cols} values for a {rows}x{cols} table, got {actual}"
  | .columnLength column actual expected =>
    s!"column {column} has {actual} rows, expected {expected}"
  | .valueCount values tuples width =>
    s!"{values} tuple values do not match {tuples} tuples of width {width}"
  | .noOccurrences tuple => s!"tuple {tuple} has no occurrences"
  | .unorderedOffsets tuple => s!"offsets of tuple {tuple} are not strictly increasing"
  | .emptySubset => "empty column subset"
  | .columnRange column cols => s!"column {column} out of range for {cols} columns"
  | .rowRange row rows => s!"row {row} out of range for {rows} rows"
  | .other text => text

def BitmapFault.message : BitmapFault → String
  | .outsideSample offset sampleSize =>
    s!"offset {offset} outside the sample of {sampleSize} rows"
  | .other text => text

/-- The text of a failure: its kind, then its cause. -/
def PlanError.message : PlanError → String
  | .invalidConfig fault => "Invalid configuration: " ++ fault.message
  | .invalidArgument fault => "Invalid argument: " ++ fault.message
  | .unsupported text => "Unsupported compression type: " ++ text
  | .bitmap fault => "Bitmap extraction failed: " ++ fault.message
  | .sizeModel text => "Size model error: " ++ text
  | .worker text => "Worker pool error: " ++ text
  | .unreadable => "Serialization error: the text is not a value of its format"
  | .crowded occurrences rows => s!"{occurrences} occurrences in a table of {rows} rows"
  | .overflow => "a number is out of the range of its counter"

end Columnar
