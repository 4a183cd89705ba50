import Columnar.Classification
import Columnar.Proofs.Counters
import Columnar.Proofs.Pricing
import Mathlib.Data.List.Basic

/-!
# The two rounds of a classification

Both rounds go over columns and update a tally. `Placed` says what a tally holds after the first
round has seen some columns, and `Reconsidered` what it holds while the second round still has
columns to see. Each is kept by one step (`Placed.place`, `Reconsidered.reconsider`) and hence by
a whole round (`exists_firstRound`, `Reconsidered.reconsiderAll`).

The first round goes through exactly if the baseline answers for every column and the listed rows of
those that do not pay fit 64 bits (`placed_of_firstRound`, `firstRound_of_exceeds`). The count of
listed rows goes down in the second round. `Reconsidered` holds it as a sum over the columns that
stay and those still to be seen, so every column that leaves is part of the count that it is taken
from (`Reconsidered.nonzeros_le`), and no step fails.
-/

namespace Columnar.Classifier

/-! ### Scores -/

/-- What was answered, and some value where there is no answer. -/
def answered {α : Type} [Inhabited α] (answer : Except PlanError α) : α :=
  answer.toOption.getD default

@[simp] theorem answered_ok {α : Type} [Inhabited α] (a : α) : answered (.ok a) = a := rfl

theorem eq_ok_answered {α : Type} [Inhabited α] {answer : Except PlanError α}
    (found : ∃ a, answer = .ok a) : answer = .ok (answered answer) := by
  obtain ⟨a, rfl⟩ := found
  rfl

/-- The score of a column against its own baseline size. -/
def ownScore (b : Baseline) (rows : Nat) (p : Pricing) : Score :=
  ⟨answered (b.uncompressedSize rows 1 (shareOf rows p)), p.minSize⟩

/-- The score of a column against the size of a dense column. -/
def denseScore (b : Baseline) (rows : Nat) (p : Pricing) : Score :=
  ⟨answered (b.uncompressedSize rows 1 1), p.minSize⟩

section Rounds

variable (b : Baseline) (rows : Nat) (priced : Nat → Pricing)

/-- Whether a column pays in the first round. -/
def pays (column : Nat) : Bool := (ownScore b rows (priced column)).isBeneficial

/-- Whether a column pays against the size of a dense column. -/
def paysDense (column : Nat) : Bool := (denseScore b rows (priced column)).isBeneficial

/-- The listed rows of some columns. -/
def listed (columns : List Nat) : Nat := total (columns.map fun column => (priced column).nonzeros)

/-- The baseline answers for each of some columns. -/
def OwnAnswered (columns : List Nat) : Prop :=
  ∀ k ∈ columns, ∃ bytes, b.uncompressedSize rows 1 (shareOf rows (priced k)) = .ok bytes

/-- What a tally holds after the first round over the columns `seen`. -/
structure Placed (seen : List Nat) (t : Tally) : Prop where
  compressible : t.compressible.reverse = seen.filter (pays b rows priced)
  rest : t.rest.reverse = seen.filter fun column => !pays b rows priced column
  corrected : t.corrected = []
  ratios : ∀ k : Nat, t.ratios[k]? = if k ∈ seen ∧ pays b rows priced k
    then some (ownScore b rows (priced k)).ratio else none
  nonzeros : t.nonzeros = listed priced (seen.filter fun column => !pays b rows priced column)
  bestCounts : ∀ e, t.bestCounts.get e = seen.countP fun column => (priced column).bestEncoding == e
  sizeUncompressed : t.sizeUncompressed =
    min (total (seen.map fun column => (ownScore b rows (priced column)).uncompressed)) maxSize
  sizeCompressed : t.sizeCompressed = min (total
    ((seen.filter (pays b rows priced)).map fun column => (priced column).minSize)) maxSize

/-- What a tally holds in the second round, when `seen` have been weighed again and `left` not
yet. The round started from `first`. -/
structure Reconsidered (first : Tally) (seen left : List Nat) (t : Tally) : Prop where
  compressible :
    t.compressible.reverse = first.compressible.reverse ++ seen.filter (paysDense b rows priced)
  rest : t.rest.reverse = seen.filter fun column => !paysDense b rows priced column
  corrected : t.corrected.reverse = seen.filter (paysDense b rows priced)
  ratios : ∀ k : Nat, t.ratios[k]? = if k ∈ seen ∧ paysDense b rows priced k
    then some (denseScore b rows (priced k)).ratio else first.ratios[k]?
  nonzeros : t.nonzeros =
    listed priced (seen.filter fun column => !paysDense b rows priced column) + listed priced left
  bestCounts : t.bestCounts = first.bestCounts
  sizeUncompressed : t.sizeUncompressed = first.sizeUncompressed
  sizeCompressed : t.sizeCompressed = min (first.sizeCompressed + total
    ((seen.filter (paysDense b rows priced)).map fun column => (priced column).minSize)) maxSize

end Rounds

/-! ### Listed rows and stopped sums -/

section Sums

variable {priced : Nat → Pricing}

@[simp] theorem listed_nil : listed priced [] = 0 := rfl

@[simp] theorem listed_cons (column : Nat) (columns : List Nat) :
    listed priced (column :: columns) = (priced column).nonzeros + listed priced columns := rfl

@[simp] theorem listed_append (xs ys : List Nat) :
    listed priced (xs ++ ys) = listed priced xs + listed priced ys := by
  simp [listed]

/-- Columns that are told apart by a test list together what all of them list. -/
theorem listed_filter_add (p : Nat → Bool) (columns : List Nat) :
    listed priced (columns.filter p) + listed priced (columns.filter fun column => !p column)
      = listed priced columns := by
  induction columns with
  | nil => rfl
  | cons column rest ih =>
    by_cases h : p column = true
    · simp [h]; omega
    · simp [h]; omega

theorem listed_le_mul {columns : List Nat} {most : Nat}
    (within : ∀ k ∈ columns, (priced k).nonzeros ≤ most) :
    listed priced columns ≤ columns.length * most := by
  induction columns with
  | nil => exact Nat.zero_le _
  | cons column rest ih =>
    have first := within column List.mem_cons_self
    have others := ih fun k mem => within k (List.mem_cons_of_mem _ mem)
    rw [listed_cons, List.length_cons, Nat.succ_mul]
    omega

end Sums

/-! ### Ratios of the columns that pay -/

section Ratios

variable {ratios : Std.TreeMap Nat Float} {pays : Nat → Bool} {ratio : Nat → Float}
  {others : Nat → Option Float} {seen : List Nat} {column : Nat}
variable (held : ∀ k : Nat, ratios[k]? = if k ∈ seen ∧ pays k then some (ratio k) else others k)
include held

theorem getElem?_insert_of_pays (paying : pays column = true) (k : Nat) :
    (ratios.insert column (ratio column))[k]? =
      if k ∈ seen ++ [column] ∧ pays k then some (ratio k) else others k := by
  rw [Std.TreeMap.getElem?_insert, held k]
  by_cases same : column = k
  · subst same
    simp [paying]
  · simp [same, Ne.symm same]

theorem getElem?_of_not_pays (paying : pays column = false) (k : Nat) :
    ratios[k]? = if k ∈ seen ++ [column] ∧ pays k then some (ratio k) else others k := by
  rw [held k]
  by_cases same : k = column
  · subst same
    simp [paying]
  · simp [same]

end Ratios

/-! ### The first round -/

section FirstRound

variable {b : Baseline} {rows : Nat} {priced : Nat → Pricing}

theorem placed_empty : Placed b rows priced [] {} where
  compressible := rfl
  rest := rfl
  corrected := rfl
  ratios k := by simp
  nonzeros := rfl
  bestCounts e := by cases e <;> rfl
  sizeUncompressed := rfl
  sizeCompressed := rfl

theorem place_of_pays {column : Nat} (paying : pays b rows priced column = true) (t : Tally) :
    t.place column (priced column) (ownScore b rows (priced column)).uncompressed = .ok
      { t with
        bestCounts := t.bestCounts.modify (priced column).bestEncoding (· + 1)
        sizeUncompressed := satAdd t.sizeUncompressed (ownScore b rows (priced column)).uncompressed
        compressible := column :: t.compressible
        ratios := t.ratios.insert column (ownScore b rows (priced column)).ratio
        sizeCompressed := satAdd t.sizeCompressed (priced column).minSize } := by
  unfold Tally.place
  exact if_pos paying

theorem place_of_not_pays {column : Nat} (paying : pays b rows priced column = false) (t : Tally) :
    t.place column (priced column) (ownScore b rows (priced column)).uncompressed =
      (plus maxSize t.nonzeros (priced column).nonzeros).map fun nonzeros =>
      { t with
        bestCounts := t.bestCounts.modify (priced column).bestEncoding (· + 1)
        sizeUncompressed := satAdd t.sizeUncompressed (ownScore b rows (priced column)).uncompressed
        rest := column :: t.rest
        nonzeros := nonzeros } := by
  unfold Tally.place
  refine (if_neg (Bool.eq_false_iff.mp paying)).trans ?_
  cases plus maxSize t.nonzeros (priced column).nonzeros <;> rfl

theorem Placed.bestCounts_concat {seen : List Nat} {t : Tally} (h : Placed b rows priced seen t)
    (column : Nat) (e : Encoding) :
    (t.bestCounts.modify (priced column).bestEncoding (· + 1)).get e =
      (seen ++ [column]).countP fun column => (priced column).bestEncoding == e := by
  rw [List.countP_append, ← h.bestCounts e]
  by_cases same : (priced column).bestEncoding = e
  · subst same
    simp
  · rw [PerEncoding.get_modify_of_ne _ _ (Ne.symm same)]
    simp [same]

theorem Placed.sizeUncompressed_concat {seen : List Nat} {t : Tally}
    (h : Placed b rows priced seen t) (column : Nat) :
    satAdd t.sizeUncompressed (ownScore b rows (priced column)).uncompressed =
      min (total ((seen ++ [column]).map fun column =>
        (ownScore b rows (priced column)).uncompressed)) maxSize := by
  rw [h.sizeUncompressed]
  simp

/-- The listed rows of the columns that do not pay, with one more column. -/
theorem listed_concat (seen : List Nat) (column : Nat) :
    listed priced ((seen ++ [column]).filter fun column => !pays b rows priced column) =
      listed priced (seen.filter fun column => !pays b rows priced column) +
        if pays b rows priced column then 0 else (priced column).nonzeros := by
  cases paying : pays b rows priced column <;> simp [paying]

/-- **A step of the first round** places one more column, as long as the listed rows fit. -/
theorem Placed.place {seen : List Nat} {t : Tally} (h : Placed b rows priced seen t)
    {column : Nat} (fits : listed priced
      ((seen ++ [column]).filter fun column => !pays b rows priced column) ≤ maxSize) :
    ∃ t', t.place column (priced column) (ownScore b rows (priced column)).uncompressed = .ok t' ∧
      Placed b rows priced (seen ++ [column]) t' := by
  have counts := h.bestCounts_concat column
  have sizes := h.sizeUncompressed_concat column
  rw [listed_concat, ← h.nonzeros] at fits
  cases paying : pays b rows priced column with
  | true =>
    have ratios := getElem?_insert_of_pays h.ratios paying
    refine ⟨_, place_of_pays paying t, ?_, ?_, h.corrected, ratios, ?_, counts, sizes, ?_⟩
    · simp [h.compressible, paying]
    · simp [h.rest, paying]
    · simp [h.nonzeros, paying]
    · simp [h.sizeCompressed, paying]
  | false =>
    have ratios := getElem?_of_not_pays h.ratios paying
    rw [paying, if_neg Bool.false_ne_true] at fits
    rw [place_of_not_pays paying, plus_of_le fits]
    refine ⟨_, rfl, ?_, ?_, h.corrected, ratios, ?_, counts, sizes, ?_⟩
    · simp [h.compressible, paying]
    · simp [h.rest, paying]
    · simp [h.nonzeros, paying]
    · simp [h.sizeCompressed, paying]

/-- Listed rows that no longer fit stop the step that adds them. -/
theorem Placed.place_of_exceeds {seen : List Nat} {t : Tally} (h : Placed b rows priced seen t)
    {column : Nat} (held : t.nonzeros ≤ maxSize) (exceeds : maxSize < listed priced
      ((seen ++ [column]).filter fun column => !pays b rows priced column)) :
    t.place column (priced column) (ownScore b rows (priced column)).uncompressed =
      .error .overflow := by
  rw [listed_concat, ← h.nonzeros] at exceeds
  cases paying : pays b rows priced column with
  | true =>
    rw [paying] at exceeds
    exact absurd exceeds (Nat.not_lt_of_ge held)
  | false =>
    rw [paying, if_neg Bool.false_ne_true] at exceeds
    rw [place_of_not_pays paying, plus_of_lt exceeds]
    rfl

/-- The round over one column more asks for its size and places it last. -/
theorem firstRound_succ (count : Nat) :
    firstRound b rows ((List.range (count + 1)).map priced) = (do
      let t ← firstRound b rows ((List.range count).map priced)
      let uncompressed ← b.uncompressedSize rows 1 (shareOf rows (priced count))
      t.place count (priced count) uncompressed) := by
  unfold firstRound
  rw [List.range_succ, List.map_append, List.zipIdx_append, List.foldlM_append]
  simp

theorem ownAnswered_of_firstRound {count : Nat} {t : Tally}
    (success : firstRound b rows ((List.range count).map priced) = .ok t) :
    OwnAnswered b rows priced (List.range count) := by
  induction count generalizing t with
  | zero => exact fun k none => absurd none List.not_mem_nil
  | succ count ih =>
    rw [firstRound_succ] at success
    obtain ⟨t', earlier, last⟩ := exists_of_bind_eq_ok success
    obtain ⟨bytes, answer, -⟩ := exists_of_bind_eq_ok last
    intro k mem
    rcases Nat.lt_succ_iff_lt_or_eq.mp (List.mem_range.mp mem) with before | rfl
    · exact ih earlier k (List.mem_range.mpr before)
    · exact ⟨bytes, answer⟩

theorem OwnAnswered.of_succ {count : Nat}
    (answers : OwnAnswered b rows priced (List.range (count + 1))) :
    OwnAnswered b rows priced (List.range count) ∧
      b.uncompressedSize rows 1 (shareOf rows (priced count)) =
        .ok (ownScore b rows (priced count)).uncompressed := by
  refine ⟨fun k mem => answers k ?_, eq_ok_answered (answers count (by simp))⟩
  exact List.mem_range.mpr (Nat.lt_succ_of_lt (List.mem_range.mp mem))

theorem listed_range_succ_le (count : Nat) :
    listed priced ((List.range count).filter fun column => !pays b rows priced column) ≤
      listed priced ((List.range (count + 1)).filter fun column => !pays b rows priced column) := by
  rw [List.range_succ, listed_concat]
  exact Nat.le_add_right ..

/-- **The first round goes through** if every question is answered and the listed rows fit. -/
theorem exists_firstRound {count : Nat} (answers : OwnAnswered b rows priced (List.range count))
    (fits : listed priced
      ((List.range count).filter fun column => !pays b rows priced column) ≤ maxSize) :
    ∃ t, firstRound b rows ((List.range count).map priced) = .ok t ∧
      Placed b rows priced (List.range count) t := by
  induction count with
  | zero => exact ⟨{}, rfl, placed_empty⟩
  | succ count ih =>
    obtain ⟨earlier, answer⟩ := answers.of_succ
    obtain ⟨t, round, placed⟩ := ih earlier (Nat.le_trans (listed_range_succ_le count) fits)
    rw [List.range_succ] at fits
    obtain ⟨t', step, placed'⟩ := placed.place fits
    refine ⟨t', ?_, List.range_succ ▸ placed'⟩
    rw [firstRound_succ, round]
    show (b.uncompressedSize rows 1 _ >>= _) = _
    rw [answer]
    exact step

theorem firstRound_of_exceeds {count : Nat}
    (answers : OwnAnswered b rows priced (List.range count))
    (exceeds : maxSize < listed priced
      ((List.range count).filter fun column => !pays b rows priced column)) :
    firstRound b rows ((List.range count).map priced) = .error .overflow := by
  induction count with
  | zero => exact absurd exceeds (Nat.not_lt_zero _)
  | succ count ih =>
    obtain ⟨earlier, answer⟩ := answers.of_succ
    rw [firstRound_succ]
    -- the sum exceeds at the last column or already did before it
    rcases Nat.lt_or_ge maxSize (listed priced
      ((List.range count).filter fun column => !pays b rows priced column)) with before | held
    · rw [ih earlier before]
      rfl
    · obtain ⟨t, round, placed⟩ := exists_firstRound earlier held
      rw [List.range_succ] at exceeds
      rw [round]
      show (b.uncompressedSize rows 1 _ >>= _) = _
      rw [answer]
      exact placed.place_of_exceeds (placed.nonzeros ▸ held) exceeds

/-- The first round goes through only then. -/
theorem placed_of_firstRound {count : Nat} {t : Tally}
    (success : firstRound b rows ((List.range count).map priced) = .ok t) :
    listed priced ((List.range count).filter fun column => !pays b rows priced column) ≤ maxSize ∧
      Placed b rows priced (List.range count) t := by
  have answers := ownAnswered_of_firstRound success
  rcases Nat.lt_or_ge maxSize (listed priced
    ((List.range count).filter fun column => !pays b rows priced column)) with exceeds | fits
  · cases success.symm.trans (firstRound_of_exceeds answers exceeds)
  · obtain ⟨t', round, placed⟩ := exists_firstRound answers fits
    obtain rfl := Except.ok.inj (success.symm.trans round)
    exact ⟨fits, placed⟩

end FirstRound

/-! ### The second round -/

section SecondRound

variable {b : Baseline} {rows : Nat} {priced : Nat → Pricing} {first : Tally}

theorem Placed.reconsidered {seen : List Nat} (h : Placed b rows priced seen first) :
    Reconsidered b rows priced first [] first.rest.reverse { first with rest := [] } where
  compressible := by simp
  rest := rfl
  corrected := by simp [h.corrected]
  ratios k := by simp
  nonzeros := by simp [h.nonzeros, h.rest]
  bestCounts := rfl
  sizeUncompressed := rfl
  sizeCompressed := by simp [h.sizeCompressed]

/-- **A column never lists more rows than the count it is taken from.** -/
theorem Reconsidered.nonzeros_le {seen left : List Nat} {column : Nat} {t : Tally}
    (h : Reconsidered b rows priced first seen (column :: left) t) :
    (priced column).nonzeros ≤ t.nonzeros := by
  rw [h.nonzeros, listed_cons]
  omega

theorem reconsider_of_pays {column : Nat} (paying : paysDense b rows priced column = true)
    {t : Tally} (counted : (priced column).nonzeros ≤ t.nonzeros) :
    t.reconsider column (priced column) (denseScore b rows (priced column)).uncompressed = .ok
      { t with
        compressible := column :: t.compressible
        ratios := t.ratios.insert column (denseScore b rows (priced column)).ratio
        sizeCompressed := satAdd t.sizeCompressed (priced column).minSize
        corrected := column :: t.corrected
        nonzeros := t.nonzeros - (priced column).nonzeros } := by
  unfold Tally.reconsider
  refine (if_pos paying).trans ?_
  rw [minus_of_le counted]
  rfl

theorem reconsider_of_not_pays {column : Nat} (paying : paysDense b rows priced column = false)
    (t : Tally) :
    t.reconsider column (priced column) (denseScore b rows (priced column)).uncompressed = .ok
      { t with rest := column :: t.rest } := by
  unfold Tally.reconsider
  exact if_neg (Bool.eq_false_iff.mp paying)

/-- **A step of the second round** never fails. -/
theorem Reconsidered.reconsider {seen left : List Nat} {column : Nat} {t : Tally}
    (h : Reconsidered b rows priced first seen (column :: left) t) :
    ∃ t', t.reconsider column (priced column) (denseScore b rows (priced column)).uncompressed =
        .ok t' ∧
      Reconsidered b rows priced first (seen ++ [column]) left t' := by
  have count := h.nonzeros
  rw [listed_cons] at count
  cases paying : paysDense b rows priced column with
  | true =>
    have ratios := getElem?_insert_of_pays h.ratios paying
    refine ⟨_, reconsider_of_pays paying h.nonzeros_le, ?_, ?_, ?_, ratios, ?_, h.bestCounts,
      h.sizeUncompressed, ?_⟩
    · simp [h.compressible, paying]
    · simp [h.rest, paying]
    · simp [h.corrected, paying]
    · -- the column is still among those to come, so its rows are there to be taken off
      simp only [List.filter_append, List.filter_cons, paying, Bool.not_true, Bool.false_eq_true,
        if_false, List.filter_nil, List.append_nil]
      omega
    · simp [h.sizeCompressed, paying, Nat.add_assoc]
  | false =>
    have ratios := getElem?_of_not_pays h.ratios paying
    refine ⟨_, reconsider_of_not_pays paying t, ?_, ?_, ?_, ratios, ?_, h.bestCounts,
      h.sizeUncompressed, ?_⟩
    · simp [h.compressible, paying]
    · simp [h.rest, paying]
    · simp [h.corrected, paying]
    · simp [paying, count, Nat.add_assoc]
    · simp [h.sizeCompressed, paying]

theorem Reconsidered.reconsiderAll {count : Nat} {seen left later : List Nat} {t : Tally}
    (inTable : ∀ column ∈ left, column < count)
    (h : Reconsidered b rows priced first seen (left ++ later) t) :
    ∃ t', t.reconsiderAll ((List.range count).map priced).toArray
        (answered (b.uncompressedSize rows 1 1)) left = .ok t' ∧
      Reconsidered b rows priced first (seen ++ left) later t' := by
  induction left generalizing seen t with
  | nil => exact ⟨t, rfl, by simpa using h⟩
  | cons column left ih =>
    have found : ((List.range count).map priced).toArray[column]? = some (priced column) := by
      simp [inTable column List.mem_cons_self]
    obtain ⟨t', step, h'⟩ := h.reconsider
    obtain ⟨t'', rest, h''⟩ := ih (fun k hk => inTable k (List.mem_cons_of_mem _ hk)) h'
    rw [List.append_assoc, List.singleton_append] at h''
    refine ⟨t'', ?_, h''⟩
    unfold Tally.reconsiderAll at rest ⊢
    rw [List.foldlM_cons, found]
    show (t.reconsider column (priced column) (denseScore b rows (priced column)).uncompressed >>=
      _) = _
    rw [step]
    exact rest

end SecondRound

end Columnar.Classifier
