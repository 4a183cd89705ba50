import Columnar.Proofs.Classification.Outcome

/-!
# The accounts of a classification

A classification counts while it goes: listed rows up in the first round and down in the second,
cheapest encodings up, sizes up to a stop. Each count is a plain sum over the final partition
(`Accounts`), and the count of listed rows never leaves its range on the way (`Bounded`): what the
second round takes off is always there, and no count is above that of all columns.
-/

namespace Columnar.Classifier

/-- The counts of a classification are sums over its final partition. -/
structure Accounts (b : Baseline) (rows count : Nat) (priced : Nat → Pricing)
    (r : Classification) : Prop where
  nonzeros : r.nonzerosUncompressed = listed priced r.notCompressible
  nonzerosAfter : r.statistics.nonzerosAfter = r.nonzerosUncompressed
  nonzerosBefore : r.statistics.nonzerosBefore =
    r.nonzerosUncompressed + listed priced r.statistics.corrected
  bestCounts : ∀ e, r.statistics.bestCounts.get e =
    (List.range count).countP fun column => (priced column).bestEncoding == e
  bestCounts_total : total r.statistics.bestCounts.toList = count
  /-- The baseline has answered for every column. -/
  sizeUncompressed : ∃ bytes : Nat → Nat,
    (∀ k < count, b.uncompressedSize rows 1 (shareOf rows (priced k)) = .ok (bytes k)) ∧
      r.statistics.sizeUncompressed = min maxSize (total ((List.range count).map bytes))
  sizeCompressed : r.statistics.sizeCompressed = min maxSize
    (total (r.compressible.map fun column => (priced column).minSize))

/-- The count of listed rows stays in range in both rounds, and no step of them fails. -/
structure Bounded (b : Baseline) (rows count : Nat) (priced : Nat → Pricing) : Prop where
  /-- The first round never counts more than all columns list. -/
  first : ∀ k ≤ count, ∃ t, firstRound b rows ((List.range k).map priced) = .ok t ∧
    t.nonzeros ≤ listed priced (List.range count)
  second : ∀ seen left, leftOver b rows count priced = seen ++ left →
    ∃ t, midway b rows count priced seen = .ok t ∧ t.nonzeros ≤ listed priced (List.range count)
  /-- The second round takes off no more than there is. -/
  takes : ∀ seen column left, leftOver b rows count priced = seen ++ column :: left →
    ∃ t, midway b rows count priced seen = .ok t ∧ (priced column).nonzeros ≤ t.nonzeros

section Counts

variable {b : Baseline} {rows count : Nat} {priced : Nat → Pricing}

theorem total_countP_encoding (best : Nat → Encoding) (columns : List Nat) :
    total (Encoding.all.map fun e => columns.countP fun column => best column == e) =
      columns.length := by
  induction columns with
  | nil => rfl
  | cons column rest ih =>
    rw [List.length_cons, ← ih]
    cases h : best column <;> simp [Encoding.all, h] <;> omega

theorem listed_filter_le (p : Nat → Bool) (columns : List Nat) :
    listed priced (columns.filter p) ≤ listed priced columns := by
  have split := @listed_filter_add priced p columns
  omega

theorem listed_range_le {k : Nat} (h : k ≤ count) :
    listed priced (List.range k) ≤ listed priced (List.range count) := by
  obtain ⟨more, rfl⟩ := Nat.exists_eq_add_of_le h
  rw [List.range_add, listed_append]
  omega

theorem listed_leftOver_mono {k : Nat} (h : k ≤ count) :
    listed priced (leftOver b rows k priced) ≤ listed priced (leftOver b rows count priced) := by
  obtain ⟨more, rfl⟩ := Nat.exists_eq_add_of_le h
  unfold leftOver
  rw [List.range_add, List.filter_append, listed_append]
  exact Nat.le_add_right ..

theorem OwnAnswered.of_le {k : Nat} (answers : OwnAnswered b rows priced (List.range count))
    (le : k ≤ count) : OwnAnswered b rows priced (List.range k) :=
  fun i mem => answers i (List.mem_range.mpr ((List.mem_range.mp mem).trans_le le))

/-- While the second round runs, its tally is known. -/
theorem exists_midway (own : OwnAnswered b rows priced (List.range count))
    (fits : listed priced (leftOver b rows count priced) ≤ maxSize) {seen left : List Nat}
    (split : leftOver b rows count priced = seen ++ left) :
    ∃ first t, midway b rows count priced seen = .ok t ∧
      Reconsidered b rows priced first seen left t := by
  obtain ⟨first, round, placed⟩ := exists_firstRound own fits
  obtain ⟨t, round', reconsidered⟩ := reconsider_leftOver placed split
  refine ⟨first, t, ?_, reconsidered⟩
  rw [midway, round]
  exact round'

theorem bounded (own : OwnAnswered b rows priced (List.range count))
    (fits : listed priced (leftOver b rows count priced) ≤ maxSize) :
    Bounded b rows count priced where
  first k le := by
    obtain ⟨t, round, placed⟩ :=
      exists_firstRound (own.of_le le) ((listed_leftOver_mono le).trans fits)
    refine ⟨t, round, ?_⟩
    rw [placed.nonzeros]
    exact (listed_filter_le _ _).trans (listed_range_le le)
  second seen left split := by
    obtain ⟨first, t, round, reconsidered⟩ := exists_midway own fits split
    refine ⟨t, round, ?_⟩
    rw [reconsidered.nonzeros]
    calc listed priced (seen.filter fun column => !paysDense b rows priced column) +
          listed priced left
        ≤ listed priced seen + listed priced left := by
          exact Nat.add_le_add_right (listed_filter_le _ _) _
      _ = listed priced (leftOver b rows count priced) := by rw [split, listed_append]
      _ ≤ listed priced (List.range count) := listed_filter_le _ _
  takes seen column left split := by
    obtain ⟨first, t, round, reconsidered⟩ := exists_midway own fits split
    exact ⟨t, round, reconsidered.nonzeros_le⟩

theorem accounts_of_partition {r : Classification}
    (success : partition b rows ((List.range count).map priced) = .ok r) :
    Accounts b rows count priced r := by
  obtain ⟨⟨answers, -⟩, first, final, -, settled, rfl⟩ := of_partition_eq_ok success
  refine ⟨?_, rfl, ?_, settled.bestCounts, ?_, ?_, ?_⟩
  · exact settled.nonzeros.trans (congrArg (listed priced) settled.rest.symm)
  · exact settled.nonzerosBefore.trans
      (congrArg (_ + listed priced ·) settled.corrected.symm)
  · have counts : final.bestCounts.toList = Encoding.all.map fun e =>
        (List.range count).countP fun column => (priced column).bestEncoding == e :=
      List.map_congr_left fun e _ => settled.bestCounts e
    show total final.bestCounts.toList = count
    rw [counts, total_countP_encoding, List.length_range]
  · exact ⟨_, fun k inTable => eq_ok_answered (answers.own k (List.mem_range.mpr inTable)),
      settled.sizeUncompressed.trans (Nat.min_comm ..)⟩
  · exact settled.sizeCompressed.trans (Nat.min_comm ..)

/-- A classification that succeeds is that of priced columns. -/
theorem exists_priced_of_classify {c : Classifier} {e : Estimator} {r : Classification}
    (success : c.classify e = .ok r) :
    ∃ priced : Nat → Pricing, (∀ column < e.cols, e.estimate [column] = .ok (priced column)) ∧
      partition c.baseline e.rows ((List.range e.cols).map priced) = .ok r := by
  obtain ⟨pricings, batch, parted⟩ := exists_of_bind_eq_ok success
  have estimates := WorkerPool.exists_of_map_eq_ok c.pool batch
  have : Nonempty Pricing := ⟨sizedColumn 0⟩
  choose! priced succeeds using estimates
  obtain rfl := WorkerPool.eq_of_map_eq_ok c.pool batch succeeds
  exact ⟨priced, succeeds, parted⟩

/-- **The accounts agree with the final partition.** When a classification succeeds, every column
has a price, the counts are sums over the columns that the classification answers, and the count of
listed rows stays in range at every step of both rounds. -/
theorem classify_accounts (c : Classifier) (e : Estimator) (r : Classification)
    (success : c.classify e = .ok r) :
    ∃ priced, (∀ column < e.cols, e.estimate [column] = .ok (priced column)) ∧
      Accounts c.baseline e.rows e.cols priced r ∧
      Bounded c.baseline e.rows e.cols priced := by
  obtain ⟨priced, succeeds, parted⟩ := exists_priced_of_classify success
  obtain ⟨⟨answers, fits⟩, -⟩ := of_partition_eq_ok parted
  exact ⟨priced, succeeds, accounts_of_partition parted, bounded answers.own fits⟩

theorem classify_accounts_three_columns :
    ∃ r, reverseClassifier.classify threeColumns = .ok r ∧ r.statistics.corrected = [1] ∧
      ∃ priced, (∀ column < 3, threeColumns.estimate [column] = .ok (priced column)) ∧
        Accounts reverseClassifier.baseline 4 3 priced r ∧
        Bounded reverseClassifier.baseline 4 3 priced := by
  have same := classify_eq_partition (c := reverseClassifier) rfl (e := threeColumns)
    fun _ _ => rfl
  obtain ⟨r, parted⟩ := exists_partition (allAnswered_reverseClassifier 4 3 threeSizes) (by decide)
  have success := same.trans parted
  have corrected := (answers_of_partition parted).corrected
  exact ⟨r, success, corrected.trans (by decide),
    classify_accounts reverseClassifier threeColumns r success⟩

end Counts

end Columnar.Classifier
