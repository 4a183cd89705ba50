import Columnar.Bitmap.Extract
import Mathlib.Data.List.Basic
import Mathlib.Data.List.Induction

/-!
# What a grouping holds

A `Grouping` takes in tuples one by one and keeps a table of slots beside the tuples. This module
says what it holds without either: the keys in the order in which they first occur (`keysOf`), and
for each key the first tuple that has it and all its positions (`groupOf`). `Follows` ties a
grouping to the tuples it has taken in; adding a tuple keeps the tie (`Follows.add`), so the
tuples of a finished grouping are the groups of its keys (`toTuples_ofTuples`).
-/

namespace Columnar.Grouping

/-- The key of a tuple, unless all its cells are default. -/
def listedKey? (tuple : List Cell) : Option (List UInt64) :=
  if tuple.all Cell.isDefault then none else some (tuple.map Cell.key)

def hasKey (key : List UInt64) (tuple : List Cell) : Bool := listedKey? tuple == some key

/-- The keys of the listed tuples, in the order in which they first occur. -/
def keysOf (tuples : List (List Cell)) : List (List UInt64) :=
  (tuples.filterMap listedKey?).eraseDups

/-- The positions of a key. -/
def positionsOf (tuples : List (List Cell)) (key : List UInt64) : List Nat :=
  tuples.findIdxs (hasKey key)

/-- The first tuple with a key, and the positions of the key. -/
def groupOf (tuples : List (List Cell)) (key : List UInt64) : TupleOffsets :=
  ⟨(tuples.find? (hasKey key)).getD [], positionsOf tuples key⟩

section Keys

variable {tuples : List (List Cell)} {tuple : List Cell} {key : List UInt64}

theorem hasKey_iff : hasKey key tuple = true ↔ listedKey? tuple = some key := beq_iff_eq

theorem mem_keysOf : key ∈ keysOf tuples ↔ ∃ tuple ∈ tuples, hasKey key tuple = true := by
  simp only [keysOf, List.mem_eraseDups, List.mem_filterMap, hasKey_iff]

/-! ### One tuple more -/

theorem keysOf_concat (tuples : List (List Cell)) (tuple : List Cell) :
    keysOf (tuples ++ [tuple]) = keysOf tuples ++
      ((listedKey? tuple).toList.removeAll (tuples.filterMap listedKey?)).eraseDups := by
  rw [keysOf, List.filterMap_append, List.eraseDups_append]
  cases h : listedKey? tuple <;> simp [keysOf, h]

theorem keysOf_concat_unlisted (unlisted : listedKey? tuple = none) :
    keysOf (tuples ++ [tuple]) = keysOf tuples := by
  rw [keysOf_concat, unlisted]
  exact List.append_nil _

theorem keysOf_concat_known (listed : listedKey? tuple = some key) (known : key ∈ keysOf tuples) :
    keysOf (tuples ++ [tuple]) = keysOf tuples := by
  have occurs : key ∈ tuples.filterMap listedKey? := List.mem_eraseDups.mp known
  rw [keysOf_concat, listed]
  generalize tuples.filterMap listedKey? = seen at occurs ⊢
  simp [List.removeAll, occurs]

theorem keysOf_concat_new (listed : listedKey? tuple = some key) (new : key ∉ keysOf tuples) :
    keysOf (tuples ++ [tuple]) = keysOf tuples ++ [key] := by
  have absent : key ∉ tuples.filterMap listedKey? := fun h => new (List.mem_eraseDups.mpr h)
  rw [keysOf_concat, listed]
  generalize tuples.filterMap listedKey? = seen at absent ⊢
  simp [List.removeAll, absent, List.eraseDups_cons]

theorem positionsOf_concat (tuples : List (List Cell)) (tuple : List Cell) (key : List UInt64) :
    positionsOf (tuples ++ [tuple]) key =
      positionsOf tuples key ++ if hasKey key tuple then [tuples.length] else [] := by
  rw [positionsOf, List.findIdxs_append, List.findIdxs_singleton, Nat.zero_add]
  rfl

theorem positionsOf_eq_nil_iff : positionsOf tuples key = [] ↔ key ∉ keysOf tuples := by
  rw [positionsOf, List.findIdxs_eq_nil_iff, mem_keysOf]
  simp

theorem mem_positionsOf {position : Nat} : position ∈ positionsOf tuples key ↔
    ∃ tuple, tuples[position]? = some tuple ∧ listedKey? tuple = some key := by
  simp only [positionsOf, List.mem_findIdxs_iff_exists_getElem_pos, hasKey_iff,
    List.getElem?_eq_some_iff]
  constructor
  · rintro ⟨inBounds, listed⟩
    exact ⟨_, ⟨inBounds, rfl⟩, listed⟩
  · rintro ⟨_, ⟨inBounds, rfl⟩, listed⟩
    exact ⟨inBounds, listed⟩

theorem groupOf_concat_other (other : hasKey key tuple = false) :
    groupOf (tuples ++ [tuple]) key = groupOf tuples key := by
  simp [groupOf, positionsOf_concat, other]

theorem groupOf_concat_known (listed : listedKey? tuple = some key) (known : key ∈ keysOf tuples) :
    groupOf (tuples ++ [tuple]) key =
      { groupOf tuples key with offsets := (groupOf tuples key).offsets ++ [tuples.length] } := by
  have has : hasKey key tuple = true := hasKey_iff.mpr listed
  obtain ⟨first, mem, hasFirst⟩ := mem_keysOf.mp known
  have found : (tuples.find? (hasKey key)).isSome := List.find?_isSome.mpr ⟨first, mem, hasFirst⟩
  obtain ⟨values, hv⟩ := Option.isSome_iff_exists.mp found
  simp [groupOf, positionsOf_concat, has, hv]

theorem groupOf_concat_new (listed : listedKey? tuple = some key) (new : key ∉ keysOf tuples) :
    groupOf (tuples ++ [tuple]) key = ⟨tuple, [tuples.length]⟩ := by
  have has : hasKey key tuple = true := hasKey_iff.mpr listed
  have none : tuples.find? (hasKey key) = none := by
    rw [List.find?_eq_none]
    exact fun t mem hasT => new (mem_keysOf.mpr ⟨t, mem, hasT⟩)
  rw [groupOf, positionsOf_concat, positionsOf_eq_nil_iff.mpr new]
  simp [has, none]

/-! ### The keys of a list -/

theorem nodup_keysOf (tuples : List (List Cell)) : (keysOf tuples).Nodup := by
  induction tuples using List.reverseRecOn with
  | nil => exact List.nodup_nil
  | append_singleton tuples tuple ih =>
    cases listed : listedKey? tuple with
    | none => rwa [keysOf_concat_unlisted listed]
    | some key =>
      by_cases known : key ∈ keysOf tuples
      · rwa [keysOf_concat_known listed known]
      · rw [keysOf_concat_new listed known, List.nodup_append]
        refine ⟨ih, List.pairwise_singleton _ key, ?_⟩
        rintro old hOld new hNew rfl
        exact known (List.mem_singleton.mp hNew ▸ hOld)

/-! ### The first positions -/

def FirstBefore (tuples : List (List Cell)) (key key' : List UInt64) : Prop :=
  ∀ p ∈ (positionsOf tuples key).head?, ∀ p' ∈ (positionsOf tuples key').head?, p < p'

theorem head?_positionsOf_concat (known : key ∈ keysOf tuples) :
    (positionsOf (tuples ++ [tuple]) key).head? = (positionsOf tuples key).head? := by
  rw [positionsOf_concat]
  cases occurrences : positionsOf tuples key with
  | nil => exact absurd known (positionsOf_eq_nil_iff.mp occurrences)
  | cons p rest => rfl

theorem FirstBefore.concat {key' : List UInt64} (before : FirstBefore tuples key key')
    (known : key ∈ keysOf tuples) (known' : key' ∈ keysOf tuples) :
    FirstBefore (tuples ++ [tuple]) key key' := by
  unfold FirstBefore
  rwa [head?_positionsOf_concat known, head?_positionsOf_concat known']

theorem lt_length_of_mem_positionsOf {p : Nat} (mem : p ∈ positionsOf tuples key) :
    p < tuples.length := by
  obtain ⟨tuple, place, -⟩ := mem_positionsOf.mp mem
  exact (List.getElem?_eq_some_iff.mp place).1

theorem firstBefore_new {old : List UInt64} (hOld : old ∈ keysOf tuples)
    (listed : listedKey? tuple = some key) (new : key ∉ keysOf tuples) :
    FirstBefore (tuples ++ [tuple]) old key := by
  intro p hp p' hp'
  rw [positionsOf_concat, positionsOf_eq_nil_iff.mpr new, List.nil_append,
    hasKey_iff.mpr listed] at hp'
  cases hp'
  rw [head?_positionsOf_concat hOld] at hp
  exact lt_length_of_mem_positionsOf (List.mem_of_head? hp)

theorem ordered_keysOf (tuples : List (List Cell)) :
    (keysOf tuples).Pairwise (FirstBefore tuples) := by
  induction tuples using List.reverseRecOn with
  | nil => exact List.Pairwise.nil
  | append_singleton tuples tuple ih =>
    have still : (keysOf tuples).Pairwise (FirstBefore (tuples ++ [tuple])) :=
      ih.imp_of_mem fun known known' before => before.concat known known'
    cases listed : listedKey? tuple with
    | none => rwa [keysOf_concat_unlisted listed]
    | some key =>
      by_cases known : key ∈ keysOf tuples
      · rwa [keysOf_concat_known listed known]
      · rw [keysOf_concat_new listed known, List.pairwise_append]
        refine ⟨still, List.pairwise_singleton _ key, ?_⟩
        intro old hOld new hNew
        rw [List.mem_singleton.mp hNew]
        exact firstBefore_new hOld listed known

/-- A group begins at the position of the tuple that it holds. -/
theorem first_of_groupOf (known : key ∈ keysOf tuples) :
    ∃ p, (groupOf tuples key).offsets.head? = some p ∧
      tuples[p]? = some (groupOf tuples key).values := by
  obtain ⟨first, mem, has⟩ := mem_keysOf.mp known
  obtain ⟨values, found⟩ := Option.isSome_iff_exists.mp (List.find?_isSome.mpr ⟨first, mem, has⟩)
  have occurs : 0 < (positionsOf tuples key).length :=
    List.length_pos_iff.mpr fun nil => positionsOf_eq_nil_iff.mp nil known
  refine ⟨tuples.findIdx (hasKey key), ?_, ?_⟩
  · show (positionsOf tuples key).head? = _
    rw [List.head?_eq_getElem?, List.getElem?_eq_getElem occurs]
    exact congrArg _ (List.getElem_zero_findIdxs_eq_findIdx occurs)
  · rw [← List.find?_eq_getElem?_findIdx, groupOf, found]
    rfl

end Keys

/-! ### Adding a tuple -/

/-- A grouping has taken in a list of tuples. -/
structure Follows (tuples : List (List Cell)) (g : Grouping) : Prop where
  /-- The slot of a key is its place among the keys. -/
  slot_iff : ∀ (key : List UInt64) (slot : Nat),
    g.slots[key]? = some slot ↔ (keysOf tuples)[slot]? = some key
  /-- The tuples are the groups of the keys. -/
  groups : g.toTuples = (keysOf tuples).map (groupOf tuples)

theorem follows_empty : Follows [] empty where
  slot_iff key slot := by simp [empty, keysOf]
  groups := rfl

namespace Follows

variable {tuples : List (List Cell)} {tuple : List Cell} {key : List UInt64} {g : Grouping}

theorem size_tuples (follows : Follows tuples g) : g.tuples.size = (keysOf tuples).length := by
  have lengths := congrArg List.length follows.groups
  simpa [toTuples] using lengths

theorem not_mem_keysOf (follows : Follows tuples g) (free : g.slots[key]? = none) :
    key ∉ keysOf tuples := by
  intro mem
  obtain ⟨slot, place⟩ := List.mem_iff_getElem?.mp mem
  rw [(follows.slot_iff key slot).mpr place] at free
  cases free

theorem add_unlisted (follows : Follows tuples g) (unlisted : listedKey? tuple = none) :
    Follows (tuples ++ [tuple]) g := by
  have other : ∀ key, hasKey key tuple = false := by
    intro key
    rw [hasKey, unlisted]
    rfl
  refine ⟨?_, ?_⟩
  · rw [keysOf_concat_unlisted unlisted]
    exact follows.slot_iff
  · rw [keysOf_concat_unlisted unlisted, follows.groups]
    exact List.map_congr_left fun key _ => (groupOf_concat_other (other key)).symm

/-- A tuple with a known key adds its position to the group in the key's slot. -/
theorem add_known (follows : Follows tuples g) (listed : listedKey? tuple = some key) {slot : Nat}
    (place : g.slots[key]? = some slot) :
    Follows (tuples ++ [tuple])
      { g with tuples := g.tuples.modify slot
                 fun t => { t with offsets := tuples.length :: t.offsets } } := by
  have atSlot := (follows.slot_iff key slot).mp place
  have known : key ∈ keysOf tuples := List.mem_of_getElem? atSlot
  have same := keysOf_concat_known listed known
  refine ⟨by rw [same]; exact follows.slot_iff, ?_⟩
  rw [same]
  apply List.ext_getElem?
  intro i
  have before : (g.toTuples)[i]? = ((keysOf tuples)[i]?).map (groupOf tuples) := by
    rw [follows.groups, List.getElem?_map]
  rw [List.getElem?_map]
  simp only [toTuples, List.getElem?_map, Array.getElem?_toList, Array.getElem?_modify] at before ⊢
  by_cases here : slot = i
  · subst here
    rw [atSlot] at before ⊢
    obtain ⟨t, ht, held⟩ := Option.map_eq_some_iff.mp before
    rw [if_pos rfl, ht]
    simp only [Option.map_some, groupOf_concat_known listed known, ← held]
    simp
  · rw [if_neg here, before]
    cases atI : (keysOf tuples)[i]? with
    | none => rfl
    | some other =>
      -- no key has two slots
      have differs : other ≠ key := by
        rintro rfl
        exact here ((List.getElem?_inj (List.getElem?_eq_some_iff.mp atSlot).1
          (nodup_keysOf tuples)).mp (atSlot.trans atI.symm))
      have lacks : hasKey other tuple = false := by
        rw [hasKey, listed]
        simpa using differs.symm
      simp only [Option.map_some, groupOf_concat_other lacks]

/-- A tuple with a new key opens a slot behind the others. -/
theorem add_new (follows : Follows tuples g) (listed : listedKey? tuple = some key)
    (free : g.slots[key]? = none) :
    Follows (tuples ++ [tuple])
      ⟨g.slots.insert key g.tuples.size, g.tuples.push ⟨tuple, [tuples.length]⟩⟩ := by
  have new := follows.not_mem_keysOf free
  have more := keysOf_concat_new listed new
  refine ⟨?_, ?_⟩
  · intro other slot
    rw [more, follows.size_tuples, Std.HashMap.getElem?_insert]
    by_cases same : key = other
    · subst same
      simp only [beq_self_eq_true, if_true, Option.some.injEq]
      constructor
      · rintro rfl
        simp
      · intro place
        rw [List.getElem?_append] at place
        split at place
        · exact absurd (List.mem_of_getElem? place) new
        · have last := (List.getElem?_eq_some_iff.mp place).1
          simp only [List.length_singleton] at last
          omega
    · simp only [beq_iff_eq, same, if_false]
      rw [follows.slot_iff other slot, List.getElem?_append]
      split
      · rfl
      · rename_i beyond
        rw [List.getElem?_eq_none (Nat.le_of_not_lt beyond)]
        simp only [reduceCtorEq, false_iff]
        intro place
        have only := List.mem_of_getElem? place
        exact same (List.mem_singleton.mp only).symm
  · have old : ∀ other ∈ keysOf tuples,
        groupOf (tuples ++ [tuple]) other = groupOf tuples other := by
      intro other hOther
      apply groupOf_concat_other
      rw [hasKey, listed]
      simp only [beq_eq_false_iff_ne, ne_eq, Option.some.injEq]
      rintro rfl
      exact new hOther
    have pushed :
        toTuples ⟨g.slots.insert key g.tuples.size, g.tuples.push ⟨tuple, [tuples.length]⟩⟩ =
          g.toTuples ++ [⟨tuple, [tuples.length]⟩] := by simp [toTuples]
    rw [pushed, follows.groups, more, List.map_append, List.map_singleton,
      groupOf_concat_new listed new, List.map_congr_left old]

theorem add (follows : Follows tuples g) (tuple : List Cell) :
    Follows (tuples ++ [tuple]) (g.add tuple tuples.length) := by
  unfold Grouping.add
  split
  · rename_i default
    exact follows.add_unlisted (if_pos default)
  · rename_i lists
    have listed : listedKey? tuple = some (tuple.map Cell.key) := if_neg lists
    dsimp only
    split
    · rename_i slot place
      exact follows.add_known listed place
    · rename_i free
      exact follows.add_new listed free

end Follows

theorem ofTuples_concat (tuples : List (List Cell)) (tuple : List Cell) :
    ofTuples (tuples ++ [tuple]) = (ofTuples tuples).add tuple tuples.length := by
  simp [ofTuples, List.zipIdx_append]

theorem follows_ofTuples (tuples : List (List Cell)) : Follows tuples (ofTuples tuples) := by
  induction tuples using List.reverseRecOn with
  | nil => exact follows_empty
  | append_singleton tuples tuple ih =>
    rw [ofTuples_concat]
    exact ih.add tuple

/-- **What a grouping holds**: one group for each key that occurs, in the order of the first
occurrences. -/
theorem toTuples_ofTuples (tuples : List (List Cell)) :
    (ofTuples tuples).toTuples = (keysOf tuples).map (groupOf tuples) :=
  (follows_ofTuples tuples).groups

end Columnar.Grouping
