import Columnar.Proofs.Float.Value

/-!
# Operations keep order

Conversion, multiplication and division of numbers that are not negative keep their order. Two
different exact results are rounded in order (`IsNearest.mono`), but nearest numbers of one result
may differ at a tie, so equal results are looked at apart: there the operands are equal floats, or
the result is zero and exact. Rounding to a count keeps order as well, and with it the count of a
share of a count (`roundToCount_mul_le_roundToCount_mul`).

Infinities are compared as the ends of the line (`Lies.compare_eq`), so what is not NaN is ordered
like the extended numbers.
-/

namespace Columnar

open Float.Model Float.Model.UnpackedFloat

variable {x x' y y' : Float} {p p' q q' : ℚ}

/-- A float denotes one number. -/
theorem Denotes.eq (hx : Denotes x p) (hx' : Denotes x p') : p = p' := by
  unfold Denotes at hx hx'
  generalize x.toModel.unpack = u at hx hx'
  cases u with
  | notANumber => exact hx.elim
  | infinity => exact hx.elim
  | zero => exact Eq.trans hx (Eq.symm hx')
  | finite => exact Eq.trans hx (Eq.symm hx')

theorem exists_asFloat_le {m n : ℕ} (le : m ≤ n) (small : n < 2 ^ 64) :
    ∃ r r', Denotes (asFloat m) r ∧ IsNearest r m ∧ Denotes (asFloat n) r' ∧ IsNearest r' n ∧
      0 ≤ r ∧ r ≤ r' := by
  obtain ⟨r, counted, nearest⟩ := exists_asFloat (le.trans_lt small)
  obtain ⟨r', counted', nearest'⟩ := exists_asFloat small
  have nonneg : 0 ≤ r := nearest.ge isNearest_zero.1 m.cast_nonneg
  refine ⟨r, r', counted, nearest, counted', nearest', nonneg, ?_⟩
  rcases le.lt_or_eq with less | rfl
  · exact nearest.mono nearest' (by exact_mod_cast less)
  · exact (counted.eq counted').le

/-- A positive count is a float between one and `2 ^ 64`. -/
theorem exists_asFloat_of_pos {n : ℕ} (positive : 0 < n) (small : n < 2 ^ 64) :
    ∃ r, Denotes (asFloat n) r ∧ IsNearest r n ∧ 1 ≤ r ∧ r ≤ 2 ^ 64 := by
  obtain ⟨r, counted, nearest⟩ := exists_asFloat small
  exact ⟨r, counted, nearest, nearest.ge isRepresentable_one (by exact_mod_cast positive),
    nearest.le (isRepresentable_two_pow 64) (by exact_mod_cast small.le)⟩

/-- Conversion changes a count by a small part of it only. -/
theorem IsNearest.count_error {r : ℚ} {n : ℕ} (nearest : IsNearest r n) :
    |r - n| ≤ n / 2 ^ 52 := by
  rcases n.eq_zero_or_pos with rfl | positive
  · rw [Nat.cast_zero] at nearest ⊢
    rw [nearest.eq isNearest_zero.1]
    norm_num
  · have one : (1 : ℚ) ≤ n := by exact_mod_cast positive
    exact nearest.error_le ((zpow_le_one_of_nonpos₀ one_le_two (by decide)).trans one)

/-- Larger factors have no smaller product. -/
theorem exists_mul_le_mul (hx : Denotes x p) (hx' : Denotes x' p') (hy : Denotes y q)
    (hy' : Denotes y' q') (nonnegP : 0 ≤ p) (leP : p ≤ p') (nonnegQ : 0 ≤ q) (leQ : q ≤ q')
    (bounded : p' * q' ≤ 2 ^ 1000) :
    ∃ r r', Denotes (x * y) r ∧ Denotes (x' * y') r' ∧ r ≤ r' := by
  have product : p * q ≤ p' * q' := mul_le_mul leP leQ nonnegQ (nonnegP.trans leP)
  have nonneg : 0 ≤ p * q := mul_nonneg nonnegP nonnegQ
  obtain ⟨r, rounded, nearest⟩ := exists_mul hx hy
    (by rw [abs_of_nonneg nonneg]; exact product.trans bounded)
  obtain ⟨r', rounded', nearest'⟩ := exists_mul hx' hy'
    (by rw [abs_of_nonneg (nonneg.trans product)]; exact bounded)
  refine ⟨r, r', rounded, rounded', ?_⟩
  rcases product.lt_or_eq with less | same
  · exact nearest.mono nearest' less
  · rcases nonneg.eq_or_lt with zero | positive
    · rw [← zero] at nearest
      rw [← same, ← zero] at nearest'
      rw [nearest.eq isNearest_zero.1, nearest'.eq isNearest_zero.1]
    · have above : 0 < p := pos_of_mul_pos_left positive nonnegQ
      have above' : 0 < q := pos_of_mul_pos_right positive nonnegP
      have equal : p = p' := by
        by_contra different
        have less : p < p' := lt_of_le_of_ne leP different
        exact same.not_lt (mul_lt_mul less leQ above' (nonnegP.trans leP))
      have equal' : q = q' := mul_left_cancel₀ above.ne' (same.trans (by rw [equal]))
      subst equal equal'
      rw [hx.unique hx' above.ne', hy.unique hy' above'.ne'] at rounded
      exact (rounded.eq rounded').le

/-- A larger part of one whole has no smaller share of it. -/
theorem exists_div_le_div (hx : Denotes x p) (hx' : Denotes x' p') (hy : Denotes y q)
    (nonneg : 0 ≤ p) (le : p ≤ p') (divisor : 0 < q) (bounded : p' / q ≤ 2 ^ 1000) :
    ∃ r r', Denotes (x / y) r ∧ Denotes (x' / y) r' ∧ r ≤ r' := by
  have shares : p / q ≤ p' / q := div_le_div_of_nonneg_right le divisor.le
  have nonnegShare : 0 ≤ p / q := div_nonneg nonneg divisor.le
  obtain ⟨r, rounded, nearest⟩ := exists_div hx hy divisor.ne'
    (by rw [abs_of_nonneg nonnegShare]; exact shares.trans bounded)
  obtain ⟨r', rounded', nearest'⟩ := exists_div hx' hy divisor.ne'
    (by rw [abs_of_nonneg (nonnegShare.trans shares)]; exact bounded)
  refine ⟨r, r', rounded, rounded', ?_⟩
  rcases le.lt_or_eq with less | rfl
  · exact nearest.mono nearest' (div_lt_div_of_pos_right less divisor)
  · rcases nonneg.eq_or_lt with rfl | positive
    · rw [zero_div] at nearest nearest'
      rw [nearest.eq isNearest_zero.1, nearest'.eq isNearest_zero.1]
    · rw [hx.unique hx' positive.ne'] at rounded
      exact (rounded.eq rounded').le

/-- A larger count has no smaller share of a positive one. -/
theorem exists_share_le_share {m n whole : ℕ} (le : m ≤ n) (small : n < 2 ^ 64)
    (positive : 0 < whole) (wholeSmall : whole < 2 ^ 64) :
    ∃ s s', Denotes (asFloat m / asFloat whole) s ∧ Denotes (asFloat n / asFloat whole) s' ∧
      s ≤ s' := by
  obtain ⟨r, r', counted, -, counted', nearest', nonneg, order⟩ := exists_asFloat_le le small
  obtain ⟨d, divisor, -, atLeastOne, -⟩ := exists_asFloat_of_pos positive wholeSmall
  have top : r' ≤ 2 ^ 64 := nearest'.le (isRepresentable_two_pow 64) (by exact_mod_cast small.le)
  have bounded : r' / d ≤ 2 ^ 1000 :=
    calc r' / d ≤ r' := div_le_self (nonneg.trans order) atLeastOne
      _ ≤ 2 ^ 1000 := top.trans (pow_le_pow_right₀ one_le_two (by decide))
  exact exists_div_le_div counted counted' divisor nonneg order (by linarith) bounded

/-- The share of a count in a positive one, and the two floats that it is the share of. -/
theorem exists_share_of_pos {part whole : ℕ} (positive : 0 < whole) (wholeSmall : whole < 2 ^ 64)
    (partSmall : part < 2 ^ 64) :
    ∃ r d s, (Denotes (asFloat part) r ∧ IsNearest r part) ∧
      (Denotes (asFloat whole) d ∧ IsNearest d whole) ∧ 1 ≤ d ∧
      Denotes (asFloat part / asFloat whole) s ∧ IsNearest s (r / d) := by
  obtain ⟨r, counted, nearest⟩ := exists_asFloat partSmall
  obtain ⟨d, divisor, nearestD, atLeastOne, -⟩ := exists_asFloat_of_pos positive wholeSmall
  have nonneg : 0 ≤ r := nearest.ge isNearest_zero.1 part.cast_nonneg
  have top : r ≤ 2 ^ 64 := nearest.le (isRepresentable_two_pow 64) (by exact_mod_cast partSmall.le)
  have bounded : |r / d| ≤ 2 ^ 1000 := by
    rw [abs_of_nonneg (div_nonneg nonneg (zero_le_one.trans atLeastOne))]
    calc r / d ≤ r := div_le_self nonneg atLeastOne
      _ ≤ 2 ^ 1000 := top.trans (pow_le_pow_right₀ one_le_two (by decide))
  obtain ⟨s, share, nearestS⟩ :=
    exists_div counted divisor (zero_lt_one.trans_le atLeastOne).ne' bounded
  exact ⟨r, d, s, ⟨counted, nearest⟩, ⟨divisor, nearestD⟩, atLeastOne, share, nearestS⟩

/-! ### Infinities -/

/-- The numbers and the two ends of their line. -/
abbrev Extended := WithBot (WithTop ℚ)

namespace Extended

abbrev of (q : ℚ) : Extended := ((q : WithTop ℚ))

abbrev top : Extended := ((⊤ : WithTop ℚ))

theorem of_lt_of : of p < of q ↔ p < q := WithBot.coe_lt_coe.trans WithTop.coe_lt_coe

theorem of_le_of : of p ≤ of q ↔ p ≤ q := WithBot.coe_le_coe.trans WithTop.coe_le_coe

theorem bot_lt_of (q : ℚ) : ⊥ < of q := WithBot.bot_lt_coe _

theorem of_lt_top (q : ℚ) : of q < top := WithBot.coe_lt_coe.mpr (WithTop.coe_lt_top q)

theorem compare_of (p q : ℚ) : compare p q = compare (of p) (of q) := by
  rcases lt_trichotomy p q with less | rfl | more
  · rw [compare_lt_iff_lt.mpr less, compare_lt_iff_lt.mpr (of_lt_of.mpr less)]
  · rw [compare_eq_iff_eq.mpr rfl, compare_eq_iff_eq.mpr rfl]
  · rw [compare_gt_iff_gt.mpr more, compare_gt_iff_gt.mpr (of_lt_of.mpr more)]

end Extended

/-- A float that is not NaN lies on the line of the numbers or at one of its ends. -/
inductive Lies (x : Float) : Extended → Prop
  | bottom (infinite : x.toModel.unpack = .infinity .negative) : Lies x ⊥
  | top (infinite : x.toModel.unpack = .infinity .positive) : Lies x .top
  | number {q : ℚ} (denotes : Denotes x q) : Lies x (.of q)

theorem exists_lies (number : x.toModel.unpack ≠ .notANumber) : ∃ a, Lies x a := by
  cases value : x.toModel.unpack with
  | notANumber => exact absurd value number
  | infinity sign =>
    cases sign
    · exact ⟨_, .bottom value⟩
    · exact ⟨_, .top value⟩
  | zero sign => exact ⟨_, .number (q := 0) (by rw [Denotes, value]; rfl)⟩
  | finite sign m e hm => exact ⟨_, .number (by rw [Denotes, value]; rfl)⟩

theorem Denotes.compare_infinity (hy : Denotes y q) (sign : Sign) :
    UnpackedFloat.compare (.infinity sign) y.toModel.unpack =
        some (match sign with | .positive => .gt | .negative => .lt) ∧
      UnpackedFloat.compare y.toModel.unpack (.infinity sign) =
        some (match sign with | .positive => .lt | .negative => .gt) := by
  unfold Denotes at hy
  generalize y.toModel.unpack = u at hy ⊢
  obtain ⟨s, rfl, rfl⟩ | ⟨s, m, e, positive, rfl, rfl⟩ := hy.zero_or_finite
  · cases sign <;> exact ⟨rfl, rfl⟩
  · cases sign <;> cases s <;> exact ⟨rfl, rfl⟩

namespace Lies

variable {a b : Extended}

/-- **Floats are compared as what they lie at.** -/
theorem compare_eq (hx : Lies x a) (hy : Lies y b) :
    UnpackedFloat.compare x.toModel.unpack y.toModel.unpack = some (compare a b) := by
  cases hx with
  | bottom infinite =>
    rw [infinite]
    cases hy with
    | bottom infinite' => rw [infinite', compare_eq_iff_eq.mpr rfl]; rfl
    | top infinite' => rw [infinite', compare_lt_iff_lt.mpr (WithBot.bot_lt_coe _)]; rfl
    | number denotes =>
      rw [(denotes.compare_infinity _).1, compare_lt_iff_lt.mpr (Extended.bot_lt_of _)]
  | top infinite =>
    rw [infinite]
    cases hy with
    | bottom infinite' => rw [infinite', compare_gt_iff_gt.mpr (WithBot.bot_lt_coe _)]; rfl
    | top infinite' => rw [infinite', compare_eq_iff_eq.mpr rfl]; rfl
    | number denotes =>
      rw [(denotes.compare_infinity _).1, compare_gt_iff_gt.mpr (Extended.of_lt_top _)]
  | number denotes =>
    cases hy with
    | bottom infinite' =>
      rw [infinite', (denotes.compare_infinity _).2,
        compare_gt_iff_gt.mpr (Extended.bot_lt_of _)]
    | top infinite' =>
      rw [infinite', (denotes.compare_infinity _).2,
        compare_lt_iff_lt.mpr (Extended.of_lt_top _)]
    | number denotes' => rw [denotes.compare_eq denotes', Extended.compare_of]

theorem lt_iff (hx : Lies x a) (hy : Lies y b) : x < y ↔ a < b := by
  rw [lt_iff_compare, hx.compare_eq hy, Option.some.injEq, compare_lt_iff_lt]

theorem le_iff (hx : Lies x a) (hy : Lies y b) : x ≤ y ↔ a ≤ b := by
  rw [le_iff_compare, hx.compare_eq hy, Option.any_some, Ordering.isLE_iff_ne_gt]
  exact compare_le_iff_le

/-- What lies between two numbers is one. -/
theorem exists_denotes (hx : Lies x a) (low : .of p ≤ a) (high : a ≤ .of q) :
    ∃ r, a = .of r ∧ Denotes x r := by
  cases hx with
  | bottom => exact absurd low (not_le_of_gt (Extended.bot_lt_of p))
  | top => exact absurd high (not_le_of_gt (Extended.of_lt_top q))
  | number denotes => exact ⟨_, rfl, denotes⟩

end Lies

/-- What compares to another float is not NaN. -/
theorem number_of_compare {u v : UnpackedFloat} {order : Ordering}
    (compared : UnpackedFloat.compare u v = some order) : u ≠ .notANumber ∧ v ≠ .notANumber := by
  constructor
  · rintro rfl
    cases compared
  · rintro rfl
    cases u <;> cases compared

theorem number_of_lt (less : x < y) :
    x.toModel.unpack ≠ .notANumber ∧ y.toModel.unpack ≠ .notANumber :=
  number_of_compare (lt_iff_compare.mp less)

theorem number_of_le (le : x ≤ y) :
    x.toModel.unpack ≠ .notANumber ∧ y.toModel.unpack ≠ .notANumber := by
  obtain ⟨order, compared, -⟩ := (Option.any_eq_true ..).mp (le_iff_compare.mp le)
  exact number_of_compare compared

/-- What lies strictly between two numbers is one, and strictly between them. -/
theorem exists_denotes_of_between {z : Float} (hx : Denotes x p) (hz : Denotes z q) (low : x < y)
    (high : y < z) : ∃ r, Denotes y r ∧ p < r ∧ r < q := by
  obtain ⟨a, lies⟩ := exists_lies (number_of_lt low).2
  have above := ((Lies.number hx).lt_iff lies).mp low
  have below := (lies.lt_iff (.number hz)).mp high
  obtain ⟨r, rfl, denotes⟩ := lies.exists_denotes above.le below.le
  exact ⟨r, denotes, Extended.of_lt_of.mp above, Extended.of_lt_of.mp below⟩

theorem float_le_of_lt (less : x < y) : x ≤ y := by
  obtain ⟨a, lies⟩ := exists_lies (number_of_lt less).1
  obtain ⟨b, lies'⟩ := exists_lies (number_of_lt less).2
  exact (lies.le_iff lies').mpr ((lies.lt_iff lies').mp less).le

theorem beq_eq_false_of_lt (less : x < y) : (x == y) = false := by
  show (UnpackedFloat.compare x.toModel.unpack y.toModel.unpack == some .eq) = false
  rw [lt_iff_compare.mp less]
  rfl

/-- Every float but NaN is no larger than itself. -/
theorem le_self_of_number (number : x.toModel.unpack ≠ .notANumber) : x ≤ x := by
  obtain ⟨a, lies⟩ := exists_lies number
  exact (lies.le_iff lies).mpr le_rfl

/-! ### Rounding to a count -/

theorem roundToCount_le_roundToCount (hx : Denotes x p) (hy : Denotes y q) (le : p ≤ q) :
    roundToCount x ≤ roundToCount y := by
  rw [hx.roundToCount, hy.roundToCount]
  exact min_le_min_right maxSize (Nat.floor_mono (by linarith))

/-- A larger share of a larger count does not round to less. -/
theorem roundToCount_mul_le_roundToCount_mul (hx : Denotes x p) (hx' : Denotes x' p')
    (nonneg : 0 ≤ p) (le : p ≤ p') (atMostOne : p' ≤ 1) {m n : ℕ} (counts : m ≤ n)
    (small : n ≤ 2 ^ 60) : roundToCount (x * asFloat m) ≤ roundToCount (x' * asFloat n) := by
  obtain ⟨r, r', counted, -, counted', nearest', above, below⟩ :=
    exists_asFloat_le counts (small.trans_lt (by decide))
  have top : r' ≤ 2 ^ 60 := nearest'.le (isRepresentable_two_pow 60) (by exact_mod_cast small)
  have bounded : p' * r' ≤ 2 ^ 1000 :=
    calc p' * r' ≤ r' := mul_le_of_le_one_left (above.trans below) atMostOne
      _ ≤ 2 ^ 1000 := top.trans (pow_le_pow_right₀ one_le_two (by decide))
  obtain ⟨s, s', product, product', order⟩ :=
    exists_mul_le_mul hx hx' counted counted' nonneg le above below bounded
  exact roundToCount_le_roundToCount product product' order

/-- A share of a count, rounded twice: as a float and to a count. -/
theorem exists_roundToCount_mul (hx : Denotes x p) (nonneg : 0 ≤ p) (atMostOne : p ≤ 1) {n : ℕ}
    (small : n ≤ 2 ^ 60) :
    ∃ r s, 0 ≤ r ∧ IsNearest r n ∧ IsNearest s (p * r) ∧
      roundToCount (x * asFloat n) = ⌊s + 1 / 2⌋₊ := by
  obtain ⟨r, counted, nearest⟩ := exists_asFloat (small.trans_lt (by decide))
  have above : 0 ≤ r := nearest.ge isNearest_zero.1 n.cast_nonneg
  have product : p * r ≤ 2 ^ 60 := (mul_le_of_le_one_left above atMostOne).trans
    (nearest.le (isRepresentable_two_pow 60) (by exact_mod_cast small))
  obtain ⟨s, rounded, nearestS⟩ := exists_mul hx counted (by
    rw [abs_of_nonneg (mul_nonneg nonneg above)]
    exact product.trans (pow_le_pow_right₀ one_le_two (by decide)))
  have top : s ≤ 2 ^ 60 := nearestS.le (isRepresentable_two_pow 60) product
  have fits : ⌊s + 1 / 2⌋₊ ≤ maxSize :=
    Nat.floor_le_of_le (by rw [maxSize]; push_cast; linarith)
  exact ⟨r, s, above, nearest, nearestS, by rw [rounded.roundToCount, Nat.min_eq_left fits]⟩

/-- The share of twice a count is nearly twice its share. -/
theorem roundToCount_mul_double (hx : Denotes x p) (nonneg : 0 ≤ p) (atMostOne : p ≤ 1) {m n : ℕ}
    (double : 2 * m ≤ n) (small : n ≤ 2 ^ 60) :
    30 * roundToCount (x * asFloat m) ≤ 16 * roundToCount (x * asFloat n) + 23 := by
  obtain ⟨r, s, above, nearest, nearestS, rounded⟩ :=
    exists_roundToCount_mul hx nonneg atMostOne (show m ≤ 2 ^ 60 by omega)
  obtain ⟨r', s', above', nearest', nearestS', rounded'⟩ :=
    exists_roundToCount_mul hx nonneg atMostOne small
  rw [rounded, rounded']
  rcases ⌊s + 1 / 2⌋₊.eq_zero_or_pos with none | positive
  · rw [none]
    omega
  · have some : 1 ≤ s + 1 / 2 := (Nat.floor_pos).mp positive
    -- a product that rounds to one or more is far from the least float
    have notTiny : 1 / 4 ≤ p * r := by
      by_contra tiny
      have quarter : IsRepresentable (1 / 4) :=
        ⟨1, -2, by decide, by decide, by norm_num [abs_of_pos]⟩
      have := nearestS.le quarter (le_of_not_ge tiny)
      linarith
    have counts : 31 / 16 * r ≤ r' := by
      have error := abs_le.mp nearest.count_error
      have error' := abs_le.mp nearest'.count_error
      have twice : 2 * (m : ℚ) ≤ n := by exact_mod_cast double
      linarith
    have shares : 31 / 16 * (p * r) ≤ p * r' := by
      have := mul_le_mul_of_nonneg_left counts nonneg
      linarith
    have far : (2 : ℚ) ^ (-1000 : ℤ) ≤ 1 / 4 := by
      calc (2 : ℚ) ^ (-1000 : ℤ) ≤ 2 ^ (-2 : ℤ) := zpow_le_zpow_right₀ one_le_two (by decide)
        _ = 1 / 4 := by norm_num
    have error := abs_le.mp (nearestS.error_le (far.trans notTiny))
    have error' := abs_le.mp (nearestS'.error_le (q := p * r') (by linarith))
    have floor := Nat.floor_le (zero_le_one.trans some)
    have floor' := Nat.lt_floor_add_one (s' + 1 / 2)
    have double : (30 * ⌊s + 1 / 2⌋₊ : ℚ) < 16 * ⌊s' + 1 / 2⌋₊ + 23 := by linarith
    exact (by exact_mod_cast double : 30 * ⌊s + 1 / 2⌋₊ < 16 * ⌊s' + 1 / 2⌋₊ + 23).le

end Columnar
