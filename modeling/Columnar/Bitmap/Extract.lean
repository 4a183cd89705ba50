import Columnar.Bitmap
import Std.Data.HashMap

/-!
# Extracting bitmaps

Rows are grouped by the keys of their cells. A `Grouping` remembers the place of every key seen
so far, so that a row is added in one look-up; the tuples stay in the order of their first rows,
and each keeps the cells of its first row. Rows of default cells are left out. The offsets are
positions in the list of rows that is read, so a bitmap depends on nothing but the tuples read.
-/

namespace Columnar

/-- The tuples seen so far. The offsets of a tuple are held latest first. -/
structure Grouping where
  slots : Std.HashMap (List UInt64) Nat
  tuples : Array TupleOffsets

namespace Grouping

def empty : Grouping := ⟨∅, #[]⟩

def add (g : Grouping) (tuple : List Cell) (position : Nat) : Grouping :=
  if tuple.all Cell.isDefault then g
  else
    let key := tuple.map Cell.key
    match g.slots[key]? with
    | some slot =>
      { g with tuples := g.tuples.modify slot fun t => { t with offsets := position :: t.offsets } }
    | none => ⟨g.slots.insert key g.tuples.size, g.tuples.push ⟨tuple, [position]⟩⟩

/-- Groups a list of tuples by their positions in it. -/
def ofTuples (tuples : List (List Cell)) : Grouping :=
  tuples.zipIdx.foldl (fun (g : Grouping) (tuple, position) => g.add tuple position) empty

/-- The tuples with their offsets in increasing order. -/
def toTuples (g : Grouping) : List TupleOffsets :=
  g.tuples.toList.map fun t => { t with offsets := t.offsets.reverse }

end Grouping

namespace Bitmap

/-- The bitmap of a list of tuples, in which the positions are the offsets. -/
def ofTuples (width : Nat) (tuples : List (List Cell)) : Bitmap :=
  ⟨width, (Grouping.ofTuples tuples).toTuples⟩

/-- The bitmap of a column subset over the selected rows, or over all rows. Columns and rows may
come in any order and repeat. -/
def extract (columns : List Nat) (view : View) (rows : Option (List Nat)) :
    Except PlanError Bitmap :=
  if columns.isEmpty then .error (.invalidArgument .emptySubset)
  else
    match columns.find? (view.cols ≤ ·), rows.bind (·.find? (view.rows ≤ ·)) with
    | some column, _ => .error (.invalidArgument (.columnRange column view.cols))
    | none, some row => .error (.invalidArgument (.rowRange row view.rows))
    | none, none =>
      let selected := rows.getD (List.range view.rows)
      .ok (ofTuples columns.length (selected.map (view.tuple columns)))

end Bitmap

end Columnar
