import Columnar.Proofs.Bitmap.Grouping
import Columnar.Proofs.Bitmap.Parts
import Columnar.Proofs.Cell

/-!
# What an extraction answers

`IsGrouping` says what it means for lists of positions to group a list of tuples, without keys
and slots: by the values of cells alone. The groups that a `Grouping` holds are such a grouping
(`isGrouping_groups`), so every extraction from columns and rows in range succeeds with the
grouping of the tuples that it reads, in the order in which it reads them (`extract_groups`).
-/

namespace Columnar.Bitmap

/-- Some cell of a tuple is no zero. -/
def IsListed (tuple : List Cell) : Prop := ∃ cell ∈ tuple, cell.value ≠ 0 ∧ cell.value ≠ -0

/-- The positions of all groups, one group after the other. -/
def positions (groups : List TupleOffsets) : List Nat := groups.flatMap (·.offsets)

/-- Groups of the positions of a list of tuples, by the values of their cells. -/
structure IsGrouping (tuples : List (List Cell)) (groups : List TupleOffsets) : Prop where
  /-- The listed positions are those of tuples with a cell that is no zero. -/
  listed : ∀ p, p ∈ positions groups ↔ ∃ tuple, tuples[p]? = some tuple ∧ IsListed tuple
  /-- No position is listed twice, in one group or in two. -/
  once : (positions groups).Nodup
  /-- Two listed positions share a group if their tuples are equal cell by cell. -/
  shared : ∀ p q a b, p ∈ positions groups → q ∈ positions groups →
    tuples[p]? = some a → tuples[q]? = some b →
    ((∃ g ∈ groups, p ∈ g.offsets ∧ q ∈ g.offsets) ↔ List.Forall₂ Cell.Same a b)
  occurs : ∀ g ∈ groups, g.offsets ≠ []
  increasing : ∀ g ∈ groups, g.offsets.Pairwise (· < ·)
  /-- The first positions of the groups increase. -/
  ordered : groups.Pairwise fun g g' =>
    ∀ p ∈ g.offsets.head?, ∀ p' ∈ g'.offsets.head?, p < p'
  /-- A group holds the tuple at its first position, bit for bit. -/
  first : ∀ g ∈ groups, ∃ p, g.offsets.head? = some p ∧ tuples[p]? = some g.values

end Columnar.Bitmap

namespace Columnar.Grouping

section Tuples

variable {tuples : List (List Cell)} {tuple a b : List Cell} {key key' : List UInt64}

theorem all_isDefault_iff : tuple.all Cell.isDefault = true ↔ ¬ Bitmap.IsListed tuple := by
  simp only [List.all_eq_true, Cell.isDefault_iff, Bitmap.IsListed]
  constructor
  · rintro zeros ⟨cell, mem, positive, negative⟩
    rcases zeros cell mem with h | h
    · exact positive h
    · exact negative h
  · intro none cell mem
    by_contra different
    exact none ⟨cell, mem, not_or.mp different⟩

theorem exists_key_iff : (∃ key, listedKey? tuple = some key) ↔ Bitmap.IsListed tuple := by
  unfold listedKey?
  split
  · rename_i zeros
    simpa using all_isDefault_iff.mp zeros
  · rename_i lists
    simpa using not_not.mp (mt all_isDefault_iff.mpr lists)

theorem key_of_listed (listed : listedKey? tuple = some key) : key = tuple.map Cell.key := by
  unfold listedKey? at listed
  split at listed
  · cases listed
  · exact (Option.some.inj listed).symm

/-- Listed tuples have one key if their cells hold the same values. -/
theorem key_eq_iff (listed : listedKey? a = some key) (listed' : listedKey? b = some key') :
    key = key' ↔ List.Forall₂ Cell.Same a b := by
  have keys : (fun x y => Cell.key x = Cell.key y) = Cell.Same := by
    funext x y
    exact propext Cell.key_eq_key_iff
  rw [key_of_listed listed, key_of_listed listed', ← List.forall₂_eq_eq_eq,
    List.forall₂_map_left_iff, List.forall₂_map_right_iff, keys]

end Tuples

/-! ### The groups -/

theorem mem_positions_iff (tuples : List (List Cell)) (p : Nat) :
    p ∈ Bitmap.positions ((keysOf tuples).map (groupOf tuples)) ↔
      ∃ key ∈ keysOf tuples, p ∈ positionsOf tuples key := by
  simp only [Bitmap.positions, List.mem_flatMap, List.mem_map]
  constructor
  · rintro ⟨_, ⟨key, known, rfl⟩, mem⟩
    exact ⟨key, known, mem⟩
  · rintro ⟨key, known, mem⟩
    exact ⟨_, ⟨key, known, rfl⟩, mem⟩

theorem mem_keysOf_of_mem_positionsOf {tuples : List (List Cell)} {key : List UInt64} {p : Nat}
    (mem : p ∈ positionsOf tuples key) : key ∈ keysOf tuples := by
  by_contra unknown
  rw [positionsOf_eq_nil_iff.mpr unknown] at mem
  cases mem

/-- The groups of the keys group the tuples by the values of their cells. -/
theorem isGrouping_groups (tuples : List (List Cell)) :
    Bitmap.IsGrouping tuples ((keysOf tuples).map (groupOf tuples)) where
  listed p := by
    rw [mem_positions_iff]
    constructor
    · rintro ⟨key, -, mem⟩
      obtain ⟨tuple, place, listed⟩ := mem_positionsOf.mp mem
      exact ⟨tuple, place, exists_key_iff.mp ⟨key, listed⟩⟩
    · rintro ⟨tuple, place, lists⟩
      obtain ⟨key, listed⟩ := exists_key_iff.mpr lists
      have mem := mem_positionsOf.mpr ⟨tuple, place, listed⟩
      exact ⟨key, mem_keysOf_of_mem_positionsOf mem, mem⟩
  once := by
    rw [Bitmap.positions, List.flatMap_map, List.nodup_flatMap]
    refine ⟨fun key _ => List.nodup_findIdxs, (nodup_keysOf tuples).imp ?_⟩
    -- a position has the key of its tuple and no other
    intro key key' different p mem mem'
    obtain ⟨tuple, place, listed⟩ := mem_positionsOf.mp mem
    obtain ⟨tuple', place', listed'⟩ := mem_positionsOf.mp mem'
    cases place.symm.trans place'
    exact different (Option.some.inj (listed.symm.trans listed'))
  shared p q a b hp hq atP atQ := by
    obtain ⟨key, known, memP⟩ := (mem_positions_iff tuples p).mp hp
    obtain ⟨key', -, memQ⟩ := (mem_positions_iff tuples q).mp hq
    obtain ⟨a', placeP, listed⟩ := mem_positionsOf.mp memP
    obtain ⟨b', placeQ, listed'⟩ := mem_positionsOf.mp memQ
    cases atP.symm.trans placeP
    cases atQ.symm.trans placeQ
    rw [← key_eq_iff listed listed']
    constructor
    · rintro ⟨_, hg, inP, inQ⟩
      obtain ⟨common, -, rfl⟩ := List.mem_map.mp hg
      obtain ⟨_, placeP', listedP⟩ := mem_positionsOf.mp inP
      obtain ⟨_, placeQ', listedQ⟩ := mem_positionsOf.mp inQ
      cases placeP.symm.trans placeP'
      cases placeQ.symm.trans placeQ'
      exact (Option.some.inj (listed.symm.trans listedP)).trans
        (Option.some.inj (listedQ.symm.trans listed'))
    · rintro rfl
      exact ⟨groupOf tuples key, List.mem_map_of_mem known, memP, memQ⟩
  occurs g hg := by
    obtain ⟨key, known, rfl⟩ := List.mem_map.mp hg
    exact fun nil => positionsOf_eq_nil_iff.mp nil known
  increasing g hg := by
    obtain ⟨key, -, rfl⟩ := List.mem_map.mp hg
    exact List.pairwise_findIdxs
  ordered := List.pairwise_map.mpr (ordered_keysOf tuples)
  first g hg := by
    obtain ⟨key, known, rfl⟩ := List.mem_map.mp hg
    exact first_of_groupOf known

end Columnar.Grouping

namespace Columnar.Bitmap

variable {tuples : List (List Cell)} {width : Nat}

theorem isGrouping_ofTuples (width : Nat) (tuples : List (List Cell)) :
    IsGrouping tuples (ofTuples width tuples).tuples := by
  show IsGrouping tuples (Grouping.ofTuples tuples).toTuples
  rw [Grouping.toTuples_ofTuples]
  exact Grouping.isGrouping_groups tuples

theorem IsGrouping.lt_length {groups : List TupleOffsets} (grouping : IsGrouping tuples groups)
    {g : TupleOffsets} (hg : g ∈ groups) {p : Nat} (mem : p ∈ g.offsets) : p < tuples.length := by
  obtain ⟨tuple, place, -⟩ := (grouping.listed p).mp (List.mem_flatMap.mpr ⟨g, hg, mem⟩)
  exact (List.getElem?_eq_some_iff.mp place).1

theorem IsGrouping.disjoint {groups : List TupleOffsets} (grouping : IsGrouping tuples groups) :
    groups.Pairwise fun g g' => List.Disjoint g.offsets g'.offsets :=
  (List.nodup_flatMap.mp grouping.once).2

/-- A position is in one group only. -/
theorem IsGrouping.eq_of_mem_offsets {groups : List TupleOffsets}
    (grouping : IsGrouping tuples groups) {g g' : TupleOffsets} (hg : g ∈ groups)
    (hg' : g' ∈ groups) {p : Nat} (mem : p ∈ g.offsets) (mem' : p ∈ g'.offsets) : g = g' := by
  have symmetric : Std.Symm fun g g' : TupleOffsets => List.Disjoint g.offsets g'.offsets :=
    ⟨fun _ _ apart => apart.symm⟩
  by_contra different
  exact grouping.disjoint.forall hg hg' different mem mem'

/-- Tuples of one width make a well-formed bitmap. -/
theorem wellFormed_ofTuples (widths : ∀ tuple ∈ tuples, tuple.length = width) :
    (ofTuples width tuples).WellFormed where
  width t ht := by
    obtain ⟨p, -, place⟩ := (isGrouping_ofTuples width tuples).first t ht
    exact widths t.values (List.mem_of_getElem? place)
  occurs := (isGrouping_ofTuples width tuples).occurs
  increasing := (isGrouping_ofTuples width tuples).increasing

/-! ### Extractions in range -/

/-- The tuples that an extraction reads, in the order in which it reads them. -/
def tuplesRead (view : View) (columns : List Nat) (rows : Option (List Nat)) :
    List (List Cell) :=
  (rows.getD (List.range view.rows)).map (view.tuple columns)

section Extract

variable {view : View} {columns : List Nat} {rows : Option (List Nat)}

theorem length_of_mem_tuplesRead {tuple : List Cell} (mem : tuple ∈ tuplesRead view columns rows) :
    tuple.length = columns.length := by
  obtain ⟨row, -, rfl⟩ := List.mem_map.mp mem
  exact List.length_map ..

theorem extract_eq_ok (subset : columns ≠ [])
    (columnsInRange : ∀ column ∈ columns, column < view.cols)
    (rowsInRange : ∀ selected, rows = some selected → ∀ row ∈ selected, row < view.rows) :
    extract columns view rows = .ok (ofTuples columns.length (tuplesRead view columns rows)) := by
  have noColumn : columns.find? (view.cols ≤ ·) = none := by
    simpa using columnsInRange
  have noRow : rows.bind (·.find? (view.rows ≤ ·)) = none := by
    cases rows with
    | none => rfl
    | some selected => simpa using rowsInRange selected rfl
  rw [extract, if_neg (by simpa using subset), noColumn, noRow]
  rfl

theorem extract_all_eq_ok (subset : columns ≠ [])
    (columnsInRange : ∀ column ∈ columns, column < view.cols) :
    extract columns view none = .ok (ofTuples columns.length (tuplesRead view columns none)) :=
  extract_eq_ok subset columnsInRange (by rintro _ ⟨⟩)

/-- Columns are checked before rows. -/
theorem extract_of_outside {column : Nat} (outside : columns.find? (view.cols ≤ ·) = some column) :
    extract columns view rows = .error (.invalidArgument (.columnRange column view.cols)) := by
  have subset : ¬ columns.isEmpty = true := by
    rintro empty
    rw [List.isEmpty_iff.mp empty] at outside
    cases outside
  rw [extract, if_neg subset, outside]

/-- Rows are checked after columns. -/
theorem extract_of_rowOutside (subset : columns ≠ [])
    (columnsInRange : ∀ column ∈ columns, column < view.cols) {row : Nat}
    (outside : rows.bind (·.find? (view.rows ≤ ·)) = some row) :
    extract columns view rows = .error (.invalidArgument (.rowRange row view.rows)) := by
  have noColumn : columns.find? (view.cols ≤ ·) = none := by
    simpa using columnsInRange
  rw [extract, if_neg (by simpa using subset), noColumn, outside]

/-- Columns in range that hold the same tuples are extracted alike, in one table or in two. -/
theorem extract_congr {view' : View} {columns' : List Nat} (sameRows : view'.rows = view.rows)
    (subset : columns ≠ []) (sameWidth : columns'.length = columns.length)
    (inRange : ∀ column ∈ columns, column < view.cols)
    (inRange' : ∀ column ∈ columns', column < view'.cols)
    (sameTuples : ∀ row < view.rows, view'.tuple columns' row = view.tuple columns row)
    (rows : Option (List Nat)) : extract columns' view' rows = extract columns view rows := by
  have subset' : columns' ≠ [] := by
    rw [← List.length_pos_iff, sameWidth]
    exact List.length_pos_iff.mpr subset
  cases outside : rows.bind (·.find? (view.rows ≤ ·)) with
  | some row =>
    rw [extract_of_rowOutside subset inRange outside,
      extract_of_rowOutside subset' inRange' (sameRows ▸ outside), sameRows]
  | none =>
    have rowsInRange : ∀ row ∈ rows.getD (List.range view.rows), row < view.rows := by
      cases rows with
      | none => exact fun row mem => List.mem_range.mp mem
      | some selected => simpa using outside
    have read : tuplesRead view' columns' rows = tuplesRead view columns rows := by
      rw [tuplesRead, sameRows]
      exact List.map_congr_left fun row mem => sameTuples row (rowsInRange row mem)
    have selectedInRange : ∀ selected, rows = some selected →
        ∀ row ∈ selected, row < view.rows := by
      rintro selected rfl
      exact rowsInRange
    rw [extract_eq_ok subset inRange selectedInRange,
      extract_eq_ok subset' inRange' (sameRows ▸ selectedInRange), read, sameWidth]

theorem eq_ofTuples_of_extract {b : Bitmap} (success : extract columns view rows = .ok b) :
    b = ofTuples columns.length (tuplesRead view columns rows) := by
  unfold extract at success
  split at success
  · cases success
  · split at success
    · cases success
    · cases success
    · exact (Except.ok.inj success).symm

theorem isGrouping_of_extract {b : Bitmap} (success : extract columns view rows = .ok b) :
    IsGrouping (tuplesRead view columns rows) b.tuples := by
  rw [eq_ofTuples_of_extract success]
  exact isGrouping_ofTuples ..

theorem wellFormed_of_extract {b : Bitmap} (success : extract columns view rows = .ok b) :
    b.WellFormed := by
  rw [eq_ofTuples_of_extract success]
  exact wellFormed_ofTuples fun _ mem => length_of_mem_tuplesRead mem

/-- An extraction lists positions among the rows it reads. -/
theorem lt_of_extract {b : Bitmap} (success : extract columns view rows = .ok b) {t : TupleOffsets}
    (ht : t ∈ b.tuples) {p : Nat} (mem : p ∈ t.offsets) :
    p < (rows.getD (List.range view.rows)).length := by
  simpa [tuplesRead] using (isGrouping_of_extract success).lt_length ht mem

theorem isWithin_of_extract {b : Bitmap} (success : extract columns view rows = .ok b) :
    b.IsWithin (rows.getD (List.range view.rows)).length :=
  fun _ ht _ mem => lt_of_extract success ht mem

theorem extract_range (view : View) (columns : List Nat) :
    extract columns view (some (List.range view.rows)) = extract columns view none := by
  have noRow : (List.range view.rows).find? (view.rows ≤ ·) = none := by simp
  simp only [extract, Option.bind_some, Option.bind_none, noRow]
  rfl

end Extract

/-- **Extractions group what they read.** From columns and rows in range, in any order and with
repetitions, every extraction succeeds: its groups are those of the tuples read, by the values of
their cells, and its width, values and offsets are accepted as the parts of a bitmap. -/
theorem extract_groups (view : View) {columns : List Nat} {rows : Option (List Nat)}
    (subset : columns ≠ []) (columnsInRange : ∀ column ∈ columns, column < view.cols)
    (rowsInRange : ∀ selected, rows = some selected → ∀ row ∈ selected, row < view.rows) :
    ∃ b, extract columns view rows = .ok b ∧ b.width = columns.length ∧
      IsGrouping (tuplesRead view columns rows) b.tuples ∧
      ofParts b.width b.flatValues b.offsetLists = .ok b :=
  ⟨_, extract_eq_ok subset columnsInRange rowsInRange, rfl, isGrouping_ofTuples _ _,
    ofParts_of_wellFormed (wellFormed_ofTuples fun _ mem => length_of_mem_tuplesRead mem)⟩

/-- Two rows with NaNs of different bits, two with zeros of either sign beside a one, and one of
zeros only. -/
def mixedZeros : View :=
  let nan : Cell := ⟨0x7ff8000000000001⟩
  let minusNan : Cell := ⟨0xfff8000000000000⟩
  let minusZero : Cell := .ofFloat (-0)
  let cells := #[nan, 0, minusNan, minusZero, 0, 0, minusZero, minusZero, 1, 1]
  ⟨⟨5, 2, cells, rfl, by decide, by decide⟩, false⟩

theorem extract_groups_mixed_zeros :
    (∀ column ∈ [1, 0, 1], column < mixedZeros.cols) ∧
      (∀ row ∈ [3, 0, 1, 4, 2, 0], row < mixedZeros.rows) ∧
      ∃ b, extract [1, 0, 1] mixedZeros (some [3, 0, 1, 4, 2, 0]) = .ok b ∧ b.width = 3 ∧
        IsGrouping (tuplesRead mixedZeros [1, 0, 1] (some [3, 0, 1, 4, 2, 0])) b.tuples ∧
        ofParts b.width b.flatValues b.offsetLists = .ok b := by
  have columnsInRange : ∀ column ∈ [1, 0, 1], column < mixedZeros.cols := by decide
  have rowsInRange : ∀ row ∈ [3, 0, 1, 4, 2, 0], row < mixedZeros.rows := by decide
  refine ⟨columnsInRange, rowsInRange, ?_⟩
  exact extract_groups mixedZeros (List.cons_ne_nil _ _) columnsInRange
    (by rintro _ ⟨⟩; exact rowsInRange)

end Columnar.Bitmap
