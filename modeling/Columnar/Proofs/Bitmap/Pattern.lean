import Columnar.Proofs.Bitmap.Extraction

/-!
# Groups and patterns

The cells of a tuple do not show in the offsets of its group. A list of groups lists its offsets by
which positions it puts together: its first positions are those with no earlier one beside them, and
each group holds what is together with its first (`IsGrouping.map_offsets_eq`). Positions are
together if their tuples are listed and equal cell by cell (`IsGrouping.together_iff_tuples`), so
lists of tuples that agree on that much are grouped at the same offsets
(`IsGrouping.map_offsets_congr`).
-/

namespace Columnar.Bitmap

/-- Two positions are in one group. -/
def Together (groups : List TupleOffsets) (p q : Nat) : Prop :=
  ∃ g ∈ groups, p ∈ g.offsets ∧ q ∈ g.offsets

instance (groups : List TupleOffsets) (p q : Nat) : Decidable (Together groups p q) := by
  unfold Together
  infer_instance

/-- A position is the first one of its group. -/
def IsFirst (groups : List TupleOffsets) (p : Nat) : Prop :=
  Together groups p p ∧ ∀ q < p, ¬ Together groups q p

instance (groups : List TupleOffsets) (p : Nat) : Decidable (IsFirst groups p) := by
  unfold IsFirst
  infer_instance

namespace IsGrouping

variable {tuples : List (List Cell)} {groups : List TupleOffsets} {g : TupleOffsets} {p q : Nat}

section Offsets

variable (grouping : IsGrouping tuples groups)
include grouping

/-- A group holds what is together with any of its positions. -/
theorem offsets_eq_filter (hg : g ∈ groups) (mem : p ∈ g.offsets) :
    g.offsets = (List.range tuples.length).filter (Together groups p) := by
  have sorted : ((List.range tuples.length).filter (Together groups p)).Pairwise (· < ·) :=
    List.pairwise_lt_range.filter _
  refine (grouping.increasing g hg).eq_of_mem_iff sorted fun {q} => ?_
  rw [List.mem_filter, List.mem_range, decide_eq_true_iff]
  constructor
  · intro mem'
    exact ⟨grouping.lt_length hg mem', g, hg, mem, mem'⟩
  · rintro ⟨-, other, hOther, inOther, mem'⟩
    rwa [grouping.eq_of_mem_offsets hg hOther mem inOther]

/-- A group begins with one of its positions, and no other one comes before it. -/
theorem exists_head (hg : g ∈ groups) :
    g.offsets.headD 0 ∈ g.offsets ∧ ∀ q ∈ g.offsets, g.offsets.headD 0 ≤ q := by
  have increasing := grouping.increasing g hg
  cases offsets : g.offsets with
  | nil => exact absurd offsets (grouping.occurs g hg)
  | cons p rest =>
    rw [offsets, List.pairwise_cons] at increasing
    refine ⟨List.mem_cons_self, fun q mem => ?_⟩
    rcases List.mem_cons.mp mem with rfl | later
    · exact Nat.le_refl _
    · exact (increasing.1 q later).le

theorem pairwise_heads : (groups.map (·.offsets.headD 0)).Pairwise (· < ·) := by
  rw [List.pairwise_map]
  refine grouping.ordered.imp_of_mem fun {g g'} hg hg' before => ?_
  have head : ∀ g ∈ groups, g.offsets.head? = some (g.offsets.headD 0) := by
    intro g hg
    cases offsets : g.offsets with
    | nil => exact absurd offsets (grouping.occurs g hg)
    | cons p rest => rfl
  exact before _ (head g hg) _ (head g' hg')

theorem mem_heads_iff : p ∈ groups.map (·.offsets.headD 0) ↔ IsFirst groups p := by
  rw [List.mem_map]
  constructor
  · rintro ⟨g, hg, rfl⟩
    obtain ⟨mem, least⟩ := grouping.exists_head hg
    refine ⟨⟨g, hg, mem, mem⟩, ?_⟩
    rintro q below ⟨other, hOther, inOther, mem'⟩
    rw [← grouping.eq_of_mem_offsets hg hOther mem mem'] at inOther
    exact absurd (least q inOther) (Nat.not_le.mpr below)
  · rintro ⟨⟨g, hg, mem, -⟩, first⟩
    obtain ⟨inGroup, least⟩ := grouping.exists_head hg
    refine ⟨g, hg, Nat.le_antisymm (least p mem) (Nat.le_of_not_lt fun below => ?_)⟩
    exact first _ below ⟨g, hg, inGroup, mem⟩

/-- **Groups list their offsets by which positions are together.** -/
theorem map_offsets_eq : groups.map (·.offsets) =
    ((List.range tuples.length).filter (IsFirst groups)).map fun p =>
      (List.range tuples.length).filter (Together groups p) := by
  have firsts : groups.map (·.offsets.headD 0) =
      (List.range tuples.length).filter (IsFirst groups) := by
    refine grouping.pairwise_heads.eq_of_mem_iff (List.pairwise_lt_range.filter _) fun {p} => ?_
    rw [grouping.mem_heads_iff, List.mem_filter, List.mem_range, decide_eq_true_iff]
    refine (and_iff_right_of_imp ?_).symm
    rintro ⟨⟨g, hg, mem, -⟩, -⟩
    exact grouping.lt_length hg mem
  rw [← firsts, List.map_map]
  exact List.map_congr_left fun g hg => grouping.offsets_eq_filter hg (grouping.exists_head hg).1

/-- Positions are together if their tuples are listed and equal cell by cell. -/
theorem together_iff_tuples : Together groups p q ↔ ∃ a b, tuples[p]? = some a ∧
    tuples[q]? = some b ∧ IsListed a ∧ IsListed b ∧ List.Forall₂ Cell.Same a b := by
  constructor
  · rintro ⟨g, hg, memP, memQ⟩
    have listedP : p ∈ positions groups := List.mem_flatMap.mpr ⟨g, hg, memP⟩
    have listedQ : q ∈ positions groups := List.mem_flatMap.mpr ⟨g, hg, memQ⟩
    obtain ⟨a, atP, listedA⟩ := (grouping.listed p).mp listedP
    obtain ⟨b, atQ, listedB⟩ := (grouping.listed q).mp listedQ
    exact ⟨a, b, atP, atQ, listedA, listedB,
      (grouping.shared p q a b listedP listedQ atP atQ).mp ⟨g, hg, memP, memQ⟩⟩
  · rintro ⟨a, b, atP, atQ, listedA, listedB, same⟩
    exact (grouping.shared p q a b ((grouping.listed p).mpr ⟨a, atP, listedA⟩)
      ((grouping.listed q).mpr ⟨b, atQ, listedB⟩) atP atQ).mpr same

end Offsets

/-- **Tuples with one pattern are grouped at the same offsets.** The tuples of a list of rows may be
read in two ways; only which of them are listed and which are equal matters. -/
theorem map_offsets_congr {rows : List Nat} {read read' : Nat → List Cell}
    {groups' : List TupleOffsets} (grouping : IsGrouping (rows.map read) groups)
    (grouping' : IsGrouping (rows.map read') groups')
    (listed : ∀ r ∈ rows, (IsListed (read' r) ↔ IsListed (read r)))
    (same : ∀ r ∈ rows, ∀ s ∈ rows,
      (List.Forall₂ Cell.Same (read' r) (read' s) ↔ List.Forall₂ Cell.Same (read r) (read s))) :
    groups'.map (·.offsets) = groups.map (·.offsets) := by
  have together : ∀ p q, Together groups' p q ↔ Together groups p q := by
    intro p q
    rw [grouping.together_iff_tuples, grouping'.together_iff_tuples]
    simp only [List.getElem?_map, Option.map_eq_some_iff]
    constructor
    · rintro ⟨_, _, ⟨r, atP, rfl⟩, ⟨s, atQ, rfl⟩, listedR, listedS, equal⟩
      have memR := List.mem_of_getElem? atP
      have memS := List.mem_of_getElem? atQ
      exact ⟨_, _, ⟨r, atP, rfl⟩, ⟨s, atQ, rfl⟩, (listed r memR).mp listedR,
        (listed s memS).mp listedS, (same r memR s memS).mp equal⟩
    · rintro ⟨_, _, ⟨r, atP, rfl⟩, ⟨s, atQ, rfl⟩, listedR, listedS, equal⟩
      have memR := List.mem_of_getElem? atP
      have memS := List.mem_of_getElem? atQ
      exact ⟨_, _, ⟨r, atP, rfl⟩, ⟨s, atQ, rfl⟩, (listed r memR).mpr listedR,
        (listed s memS).mpr listedS, (same r memR s memS).mpr equal⟩
  rw [grouping.map_offsets_eq, grouping'.map_offsets_eq]
  simp only [IsFirst, together, List.length_map]

end IsGrouping

end Columnar.Bitmap
