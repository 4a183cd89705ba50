import Columnar.Word

/-!
# Encodings

The set of encodings is closed: every column group is priced under each of the five, and the
cheapest wins. `PerEncoding` is a value for each of them, in the order of `Encoding.all`; the
sizes of a column group are such values.
-/

namespace Columnar

/-- How the rows of a column group are stored. -/
inductive Encoding where
  /-- A dictionary with a code of one byte for each row. -/
  | dict1
  /-- A dictionary with a code of two bytes for each row. -/
  | dict2
  /-- Runs of equal rows for each tuple. -/
  | runLength
  /-- Segmented lists of offsets for each tuple. -/
  | offsetList
  /-- Dense or sparse rows without an encoding. -/
  | uncompressed
deriving DecidableEq, Repr

namespace Encoding

/-- All encodings, in the order in which they are priced. -/
def all : List Encoding := [.dict1, .dict2, .runLength, .offsetList, .uncompressed]

/-- The name that reports show. -/
def name : Encoding → String
  | .dict1 => "DDC1"
  | .dict2 => "DDC2"
  | .runLength => "RLE"
  | .offsetList => "OLE"
  | .uncompressed => "Uncompressed"

/-- The place of an encoding in `all`. -/
def index : Encoding → Nat
  | .dict1 => 0
  | .dict2 => 1
  | .runLength => 2
  | .offsetList => 3
  | .uncompressed => 4

end Encoding

/-- A value for each encoding. -/
structure PerEncoding (α : Type) where
  dict1 : α
  dict2 : α
  runLength : α
  offsetList : α
  uncompressed : α
deriving DecidableEq, Repr

namespace PerEncoding

variable {α : Type}

def get (p : PerEncoding α) : Encoding → α
  | .dict1 => p.dict1
  | .dict2 => p.dict2
  | .runLength => p.runLength
  | .offsetList => p.offsetList
  | .uncompressed => p.uncompressed

/-- Replaces the value of one encoding by its image. -/
def modify (p : PerEncoding α) (e : Encoding) (f : α → α) : PerEncoding α :=
  match e with
  | .dict1 => { p with dict1 := f p.dict1 }
  | .dict2 => { p with dict2 := f p.dict2 }
  | .runLength => { p with runLength := f p.runLength }
  | .offsetList => { p with offsetList := f p.offsetList }
  | .uncompressed => { p with uncompressed := f p.uncompressed }

def toList (p : PerEncoding α) : List α := Encoding.all.map p.get

/-- The values with their encodings, in the order of `Encoding.all`. -/
def entries (p : PerEncoding α) : List (Encoding × α) := Encoding.all.map fun e => (e, p.get e)

/-- Five values in the order of `Encoding.all`. -/
def ofList? : List α → Option (PerEncoding α)
  | [a, b, c, d, e] => some ⟨a, b, c, d, e⟩
  | _ => none

/-- Asks for each value once, in the order of `Encoding.all`; the first failure ends the asking. -/
def build {m : Type → Type} [Monad m] (ask : Encoding → m α) : m (PerEncoding α) := do
  let dict1 ← ask .dict1
  let dict2 ← ask .dict2
  let runLength ← ask .runLength
  let offsetList ← ask .offsetList
  let uncompressed ← ask .uncompressed
  return ⟨dict1, dict2, runLength, offsetList, uncompressed⟩

theorem eq_of_get {p q : PerEncoding α} (same : ∀ e, p.get e = q.get e) : p = q := by
  obtain ⟨dict1, dict2, runLength, offsetList, uncompressed⟩ := p
  cases q
  cases same .dict1
  cases same .dict2
  cases same .runLength
  cases same .offsetList
  cases same .uncompressed
  rfl

@[simp] theorem get_modify_self (p : PerEncoding α) (e : Encoding) (f : α → α) :
    (p.modify e f).get e = f (p.get e) := by cases e <;> rfl

theorem get_modify_of_ne (p : PerEncoding α) {e e' : Encoding} (f : α → α) (h : e' ≠ e) :
    (p.modify e f).get e' = p.get e' := by
  cases e <;> cases e' <;> simp_all [modify, get]

end PerEncoding

/-- The sizes of a column group. `maxSize` marks an encoding that cannot hold the group. -/
abbrev EncodingSizes := PerEncoding Nat

namespace EncodingSizes

def isFeasible (s : EncodingSizes) (e : Encoding) : Bool := s.get e != maxSize

/-- The cheapest encoding and its size; of equally cheap ones the first. -/
def cheapest (s : EncodingSizes) : Encoding × Nat :=
  s.entries.foldl (fun best entry => if entry.2 < best.2 then entry else best) (.dict1, s.dict1)

end EncodingSizes

end Columnar
