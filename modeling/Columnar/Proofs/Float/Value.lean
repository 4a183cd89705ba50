import Columnar.FloatValue
import Columnar.Proofs.Float.Rounding

/-!
# What floats denote

`Denotes` says that a float is finite and what number it is. A product, a quotient, a difference and
a count as a float denote a nearest representable number to the exact one (`exists_mul`,
`exists_div`, `exists_sub`, `exists_asFloat`), counts below `2 ^ 53` denote themselves
(`denotes_asFloat`), comparison is that of the numbers (`Denotes.lt_iff`), and rounding to a count
is that of the number (`Denotes.toCount`).
-/

namespace Columnar

open Float.Model Float.Model.UnpackedFloat

/-- A float is finite and denotes a number. -/
def Denotes (x : Float) (q : ℚ) : Prop := HasValue x.toModel.unpack q

section Signs

variable {r q : ℚ}

theorem signed_mul (s t : Sign) (p q : ℚ) : signed (s * t) (p * q) = signed s p * signed t q := by
  cases s <;> cases t
  · exact (neg_mul_neg p q).symm
  · exact (neg_mul p q).symm
  · exact (mul_neg p q).symm
  · rfl

theorem signed_div (s t : Sign) (p q : ℚ) : signed (s / t) (p / q) = signed s p / signed t q := by
  cases s <;> cases t
  · exact (neg_div_neg_eq p q).symm
  · exact (neg_div q p).symm
  · exact (div_neg p).symm
  · rfl

theorem abs_signed (s : Sign) (q : ℚ) : |signed s q| = |q| := by
  cases s
  · exact abs_neg q
  · rfl

theorem IsNearest.signed (nearest : IsNearest r q) (s : Sign) :
    IsNearest (signed s r) (signed s q) := by
  cases s
  · exact nearest.neg
  · exact nearest

theorem isNearest_zero : IsNearest 0 0 := .refl (isRepresentable_natCast (by decide))

end Signs

/-! ### Operations -/

section Operations

variable {x y : Float} {p q : ℚ}

theorem IsCanonical.ready_mul {m n : ℕ} {e f : ℤ} {s t : Sign} {hm : 0 < m} {hn : 0 < n}
    (left : IsCanonical (.finite s m e hm)) (right : IsCanonical (.finite t n f hn)) :
    Ready (m * n) (e + f) := by
  obtain _ | ⟨_, _, _, fullLeft⟩ := left
  obtain _ | ⟨_, _, _, fullRight⟩ := right
  unfold Ready
  have long : ∀ k, 2 ^ 52 ≤ k → k ≤ m * n → 52 ≤ (m * n).log2 := fun k big le =>
    (Nat.le_log2 (Nat.mul_pos hm hn).ne').mpr (big.trans le)
  rcases fullLeft with big | leastLeft
  · exact Or.inl (long m big (Nat.le_mul_of_pos_right m hn))
  · rcases fullRight with big | leastRight
    · exact Or.inl (long n big (Nat.le_mul_of_pos_left n hm))
    · right
      omega

theorem hasValue_pack_zero (s : Sign) : HasValue (Float.Model.pack (.zero s)).unpack 0 := by
  rw [unpack_pack (.zero s)]
  rfl

/-- **A product denotes a nearest number**, as long as it is far from the largest float. -/
theorem exists_mul (hx : Denotes x p) (hy : Denotes y q) (bounded : |p * q| ≤ 2 ^ 1000) :
    ∃ r, Denotes (x * y) r ∧ IsNearest r (p * q) := by
  have canonicalX := isCanonical_unpack hx
  have canonicalY := isCanonical_unpack hy
  show ∃ r, HasValue (Float.Model.pack
    (UnpackedFloat.mul Format.binary64 x.toModel.unpack y.toModel.unpack)).unpack r ∧ _
  unfold Denotes at hx hy
  generalize x.toModel.unpack = u at *
  generalize y.toModel.unpack = v at *
  obtain ⟨s, rfl, rfl⟩ | ⟨s, m, e, hm, rfl, rfl⟩ := hx.zero_or_finite
  · rw [zero_mul]
    obtain ⟨t, rfl, rfl⟩ | ⟨t, n, f, hn, rfl, rfl⟩ := hy.zero_or_finite
    · exact ⟨0, hasValue_pack_zero (s * t), isNearest_zero⟩
    · exact ⟨0, hasValue_pack_zero (s * t), isNearest_zero⟩
  · obtain ⟨t, rfl, rfl⟩ | ⟨t, n, f, hn, rfl, rfl⟩ := hy.zero_or_finite
    · rw [mul_zero]
      exact ⟨0, hasValue_pack_zero (s * t), isNearest_zero⟩
    · have product : (((m * n : ℕ) : ℚ) + 0) * 2 ^ (e + f) = m * 2 ^ e * (n * 2 ^ f) := by
        rw [zpow_add₀ two_ne_zero]
        push_cast
        ring
      rw [← signed_mul, abs_signed, ← product] at bounded
      obtain ⟨r, value, nearest⟩ := exists_nearest (s * t) (canonicalX.ready_mul canonicalY)
        describes_exact ((le_abs_self _).trans bounded)
      refine ⟨signed (s * t) r, value, ?_⟩
      rw [← signed_mul, ← product]
      exact nearest.signed (s * t)

/-! Quotients. -/

theorem describes_accuracyOfFraction {numerator denominator : ℕ} (less : numerator < denominator) :
    Describes (accuracyOfFraction numerator denominator) (numerator / denominator) := by
  have positive : (0 : ℚ) < denominator := by exact_mod_cast Nat.zero_lt_of_lt less
  have below : (numerator : ℚ) < denominator := by exact_mod_cast less
  unfold accuracyOfFraction
  split
  · rename_i none
    simp [Describes, none]
  · rename_i some
    have above : (0 : ℚ) < numerator := by exact_mod_cast Nat.pos_of_ne_zero some
    rcases order : compare (2 * numerator) denominator with _ | _ | _
    · have half : (2 * numerator : ℚ) < denominator := by
        exact_mod_cast Nat.compare_eq_lt.mp order
      exact ⟨by positivity, by rw [div_lt_div_iff₀ positive two_pos]; linarith⟩
    · have half : (2 * numerator : ℚ) = denominator := by
        exact_mod_cast Nat.compare_eq_eq.mp order
      show (numerator : ℚ) / denominator = 1 / 2
      rw [div_eq_div_iff positive.ne' two_ne_zero]
      linarith
    · have half : (denominator : ℚ) < 2 * numerator := by
        exact_mod_cast Nat.compare_eq_gt.mp order
      exact ⟨by rw [div_lt_div_iff₀ two_pos positive]; linarith, (div_lt_one positive).mpr below⟩

theorem IsCanonical.log2_le {m : ℕ} {e : ℤ} {s : Sign} {hm : 0 < m}
    (canonical : IsCanonical (.finite s m e hm)) : m.log2 ≤ 52 := by
  obtain _ | ⟨fits, _, _, _⟩ := canonical
  exact Nat.le_of_lt_succ ((Nat.log2_lt hm.ne').mpr fits)

/-- The quotient is taken with enough places to round it. -/
theorem exists_divCore {m n : ℕ} {e : ℤ} {s : Sign} {hm : 0 < m}
    (canonical : IsCanonical (.finite s m e hm)) (f : ℤ) (hn : 0 < n) :
    ∃ quotient unit accuracy part, divCore Format.binary64 m e n f = (quotient, unit, accuracy) ∧
      Ready quotient unit ∧ Describes accuracy part ∧
      (quotient + part) * 2 ^ unit = m * 2 ^ e / (n * 2 ^ f) := by
  obtain ⟨unit, unit_eq⟩ : ∃ unit, min (e - f) (Format.binary64.targetExponent
      (totalExponent m e - totalExponent n f)) = unit := ⟨_, rfl⟩
  obtain ⟨places, places_eq⟩ : ∃ places : ℕ, (e - f - unit).toNat = places := ⟨_, rfl⟩
  have short := canonical.log2_le
  simp only [Format.targetExponent, totalExponent, Format.mantissaBits, Format.minExponent]
    at unit_eq
  refine ⟨m <<< places / n, unit, _, _, ?_, ?_,
    describes_accuracyOfFraction (Nat.mod_lt (m <<< places) hn), ?_⟩
  · simp only [divCore, Format.targetExponent, totalExponent, Format.mantissaBits,
      Format.minExponent, unit_eq, places_eq]
  · by_cases least : unit ≤ -1074
    · exact Or.inr least
    · left
      -- the dividend is moved until the quotient has 53 places
      have length : 52 + (n.log2 + 1) ≤ m.log2 + places := by omega
      have quotientLong : 2 ^ 52 ≤ m <<< places / n := by
        rw [Nat.le_div_iff_mul_le hn, Nat.shiftLeft_eq]
        calc 2 ^ 52 * n ≤ 2 ^ 52 * 2 ^ (n.log2 + 1) :=
              Nat.mul_le_mul_left _ Nat.lt_log2_self.le
          _ ≤ 2 ^ m.log2 * 2 ^ places := by
              rw [← Nat.pow_add, ← Nat.pow_add]
              exact Nat.pow_le_pow_right two_pos length
          _ ≤ m * 2 ^ places := Nat.mul_le_mul_right _ (Nat.log2_self_le hm.ne')
      exact (Nat.le_log2 (by omega)).mpr quotientLong
  · have whole : ((m <<< places / n : ℕ) : ℚ) + ((m <<< places % n : ℕ) : ℚ) / n =
        m * 2 ^ places / n := by
      have parts : (n : ℚ) * (m <<< places / n : ℕ) + (m <<< places % n : ℕ) = m * 2 ^ places := by
        rw [Nat.shiftLeft_eq]
        exact_mod_cast Nat.div_add_mod (m * 2 ^ places) n
      have nonzero : (n : ℚ) ≠ 0 := by exact_mod_cast hn.ne'
      field_simp
      linarith
    have moved : (2 : ℚ) ^ places * 2 ^ unit * 2 ^ f = 2 ^ e := by
      rw [← zpow_natCast, ← zpow_add₀ two_ne_zero, ← zpow_add₀ two_ne_zero]
      congr 1
      omega
    rw [whole, ← moved]
    field_simp

/-- **A quotient denotes a nearest number**, as long as it is far from the largest float. -/
theorem exists_div (hx : Denotes x p) (hy : Denotes y q) (divisor : q ≠ 0)
    (bounded : |p / q| ≤ 2 ^ 1000) : ∃ r, Denotes (x / y) r ∧ IsNearest r (p / q) := by
  have canonicalX := isCanonical_unpack hx
  show ∃ r, HasValue (Float.Model.pack
    (UnpackedFloat.div Format.binary64 x.toModel.unpack y.toModel.unpack)).unpack r ∧ _
  unfold Denotes at hx hy
  generalize x.toModel.unpack = u at *
  generalize y.toModel.unpack = v at *
  obtain ⟨t, rfl, rfl⟩ | ⟨t, n, f, hn, rfl, rfl⟩ := hy.zero_or_finite
  · exact absurd rfl divisor
  · obtain ⟨s, rfl, rfl⟩ | ⟨s, m, e, hm, rfl, rfl⟩ := hx.zero_or_finite
    · rw [zero_div]
      exact ⟨0, hasValue_pack_zero (s / t), isNearest_zero⟩
    · obtain ⟨quotient, unit, accuracy, part, core, ready, describes, exact⟩ :=
        exists_divCore canonicalX f hn
      rw [← signed_div, abs_signed, ← exact] at bounded
      obtain ⟨r, value, nearest⟩ := exists_nearest (s / t) ready describes
        ((le_abs_self _).trans bounded)
      refine ⟨signed (s / t) r, ?_, ?_⟩
      · simp only [UnpackedFloat.div, core]
        exact value
      · rw [← signed_div, ← exact]
        exact nearest.signed (s / t)

/-! Whole numbers of units. -/

/-- A whole number of units is rounded to a nearest representable number. -/
theorem exists_round (sign : Sign) {mantissa : ℕ} (positive : 0 < mantissa) {exponent : ℤ}
    (bounded : (mantissa : ℚ) * 2 ^ exponent ≤ 2 ^ 1000) :
    ∃ r, HasValue (Float.Model.pack
        (UnpackedFloat.round Format.binary64 sign mantissa exponent)).unpack (signed sign r) ∧
      IsNearest r (mantissa * 2 ^ exponent) := by
  obtain ⟨places, shift⟩ : ∃ places : ℕ,
      (exponent - Format.binary64.targetExponent (totalExponent mantissa exponent)).toNat =
        places := ⟨_, rfl⟩
  have ready : Ready (mantissa <<< places) (exponent - places) := by
    rw [targetExponent_eq] at shift
    by_cases least : exponent - places ≤ -1074
    · exact Or.inr least
    · left
      have enough : 52 ≤ mantissa.log2 + places := by omega
      rw [Nat.shiftLeft_eq]
      refine (Nat.le_log2 (Nat.mul_pos positive (Nat.two_pow_pos _)).ne').mpr ?_
      calc 2 ^ 52 ≤ 2 ^ (mantissa.log2 + places) := Nat.pow_le_pow_right two_pos enough
        _ = 2 ^ mantissa.log2 * 2 ^ places := Nat.pow_add ..
        _ ≤ mantissa * 2 ^ places := Nat.mul_le_mul_right _ (Nat.log2_self_le positive.ne')
  have value : (((mantissa <<< places : ℕ) : ℚ) + 0) * 2 ^ (exponent - places) =
      mantissa * 2 ^ exponent := by
    rw [Nat.shiftLeft_eq, zpow_sub₀ two_ne_zero, zpow_natCast]
    push_cast
    field_simp
    ring
  rw [← value] at bounded
  obtain ⟨r, denoted, nearest⟩ := exists_nearest sign ready describes_exact bounded
  rw [value] at nearest
  refine ⟨r, ?_, nearest⟩
  simp only [UnpackedFloat.round, decreaseExponent, shift]
  exact denoted

/-- So is a whole number of units with its sign. -/
theorem exists_normalize (n exponent : ℤ) (bounded : |(n : ℚ) * 2 ^ exponent| ≤ 2 ^ 1000) :
    ∃ r, HasValue (Float.Model.pack
        (UnpackedFloat.normalize Format.binary64 n exponent .positive)).unpack r ∧
      IsNearest r (n * 2 ^ exponent) := by
  rw [abs_mul, abs_of_pos (by positivity : (0 : ℚ) < 2 ^ exponent)] at bounded
  unfold UnpackedFloat.normalize
  rcases lt_trichotomy n 0 with negative | rfl | positive
  · obtain ⟨k, rfl⟩ : ∃ k : ℕ, n = -k := ⟨n.natAbs, by omega⟩
    rw [Int.compare_eq_lt.mpr negative]
    simp only [neg_neg, Int.toNat_natCast, Int.cast_neg, Int.cast_natCast, abs_neg, Nat.abs_cast]
      at bounded ⊢
    obtain ⟨r, value, nearest⟩ := exists_round .negative (by omega) bounded
    refine ⟨_, value, ?_⟩
    rw [neg_mul]
    exact nearest.neg
  · rw [Int.cast_zero, zero_mul]
    exact ⟨0, hasValue_pack_zero .positive, isNearest_zero⟩
  · obtain ⟨k, rfl⟩ : ∃ k : ℕ, n = k := ⟨n.toNat, by omega⟩
    rw [Int.compare_eq_gt.mpr positive]
    simp only [Int.toNat_natCast, Int.cast_natCast, Nat.abs_cast] at bounded ⊢
    obtain ⟨r, value, nearest⟩ := exists_round .positive (by omega) bounded
    exact ⟨_, value, nearest⟩

/-! Differences. -/

theorem IsCanonical.isRepresentable {u : UnpackedFloat} (canonical : IsCanonical u)
    (value : HasValue u q) : IsRepresentable q := by
  cases canonical with
  | zero s =>
    obtain rfl : q = 0 := value
    exact isNearest_zero.1
  | @finite s mantissa exponent positive fits low high full =>
    obtain rfl : q = signed s (mantissa * 2 ^ exponent) := value
    refine ⟨mantissa, exponent, fits, low, ?_⟩
    rw [abs_signed, abs_of_nonneg (by positivity)]

theorem hasValue_neg {s : Sign} {mantissa : ℕ} {exponent : ℤ} {positive : 0 < mantissa}
    (value : HasValue (.finite s mantissa exponent positive) q) :
    HasValue (.finite (-s) mantissa exponent positive) (-q) := by
  obtain rfl : q = signed s (mantissa * 2 ^ exponent) := value
  cases s
  · exact neg_neg _
  · rfl

theorem IsCanonical.neg {s : Sign} {mantissa : ℕ} {exponent : ℤ} {positive : 0 < mantissa}
    (canonical : IsCanonical (.finite s mantissa exponent positive)) :
    IsCanonical (.finite (-s) mantissa exponent positive) := by
  obtain _ | ⟨fits, low, high, full⟩ := canonical
  exact .finite fits low high full

/-- In smaller units a number has a longer mantissa. -/
theorem apply_decreaseExponent (s : Sign) (mantissa : ℕ) {exponent unit : ℤ}
    (finer : unit ≤ exponent) :
    ((s.apply ((decreaseExponent mantissa exponent unit).1 : ℤ) : ℤ) : ℚ) * 2 ^ unit =
      signed s (mantissa * 2 ^ exponent) := by
  obtain ⟨places, shift⟩ : ∃ places : ℕ, exponent = unit + places :=
    ⟨(exponent - unit).toNat, by omega⟩
  have amount : (exponent - unit).toNat = places := by omega
  have longer : (((mantissa <<< places : ℕ) : ℤ) : ℚ) * 2 ^ unit = mantissa * 2 ^ exponent := by
    rw [Nat.shiftLeft_eq, shift, zpow_add₀ two_ne_zero, zpow_natCast]
    push_cast
    ring
  simp only [decreaseExponent, amount]
  cases s with
  | positive => exact longer
  | negative =>
    rw [Sign.apply, Int.cast_neg, neg_mul, longer]
    rfl

/-- **A difference denotes a nearest number**, as long as it is far from the largest float. -/
theorem exists_sub (hx : Denotes x p) (hy : Denotes y q) (bounded : |p - q| ≤ 2 ^ 1000) :
    ∃ r, Denotes (x - y) r ∧ IsNearest r (p - q) := by
  have canonicalX := isCanonical_unpack hx
  have canonicalY := isCanonical_unpack hy
  show ∃ r, HasValue (Float.Model.pack
    (UnpackedFloat.sub Format.binary64 x.toModel.unpack y.toModel.unpack)).unpack r ∧ _
  unfold Denotes at hx hy
  generalize x.toModel.unpack = u at *
  generalize y.toModel.unpack = v at *
  obtain ⟨s, rfl, rfl⟩ | ⟨s, m, e, hm, rfl, rfl⟩ := hx.zero_or_finite
  · rw [zero_sub]
    obtain ⟨t, rfl, rfl⟩ | ⟨t, n, f, hn, rfl, rfl⟩ := hy.zero_or_finite
    · rw [neg_zero]
      refine ⟨0, ?_, isNearest_zero⟩
      simp only [UnpackedFloat.sub]
      split
      · exact hasValue_pack_zero s
      · exact hasValue_pack_zero .positive
    · refine ⟨_, ?_, .refl (canonicalY.isRepresentable hy).neg⟩
      simp only [UnpackedFloat.sub]
      rw [unpack_pack canonicalY.neg]
      exact hasValue_neg hy
  · obtain ⟨t, rfl, rfl⟩ | ⟨t, n, f, hn, rfl, rfl⟩ := hy.zero_or_finite
    · rw [sub_zero]
      refine ⟨_, ?_, .refl (canonicalX.isRepresentable hx)⟩
      simp only [UnpackedFloat.sub]
      rw [unpack_pack canonicalX]
      exact hx
    · rw [← apply_decreaseExponent s m (min_le_left e f),
        ← apply_decreaseExponent t n (min_le_right e f), ← sub_mul, ← Int.cast_sub] at bounded ⊢
      exact exists_normalize _ _ bounded

/-! Counts. -/

/-- A count denotes a nearest number as a float. -/
theorem exists_asFloat {n : ℕ} (small : n < 2 ^ 64) :
    ∃ r, Denotes (asFloat n) r ∧ IsNearest r n := by
  show ∃ r, HasValue (Float.Model.pack
    (UnpackedFloat.ofNat Format.binary64 n.toUInt64.toNat)).unpack r ∧ _
  have same : n.toUInt64.toNat = n := Nat.mod_eq_of_lt small
  have value : ((n : ℤ) : ℚ) * 2 ^ (0 : ℤ) = n := by
    rw [zpow_zero, mul_one, Int.cast_natCast]
  have bounded : |((n : ℤ) : ℚ) * 2 ^ (0 : ℤ)| ≤ 2 ^ 1000 := by
    rw [value, Nat.abs_cast]
    calc (n : ℚ) ≤ 2 ^ 64 := by exact_mod_cast small.le
      _ ≤ 2 ^ 1000 := pow_le_pow_right₀ one_le_two (by decide)
  have nearest := exists_normalize n 0 bounded
  rw [value] at nearest
  rw [same]
  exact nearest

/-- A count of 53 bits is a float. -/
theorem denotes_asFloat {n : ℕ} (small : n < 2 ^ 53) : Denotes (asFloat n) n := by
  obtain ⟨r, denoted, nearest⟩ := exists_asFloat (small.trans (by decide))
  rwa [nearest.eq (isRepresentable_natCast small)] at denoted

theorem denotes_asFloat_zero : Denotes (asFloat 0) 0 := by
  exact_mod_cast denotes_asFloat (n := 0) (by decide)

/-! Operations with a result that is a float. -/

theorem Denotes.isRepresentable (hx : Denotes x p) : IsRepresentable p :=
  (isCanonical_unpack hx).isRepresentable hx

theorem denotes_mul_zero (hx : Denotes x p) (hy : Denotes y 0) : Denotes (x * y) 0 := by
  obtain ⟨r, denotes, nearest⟩ := exists_mul hx hy (by norm_num)
  rw [mul_zero] at nearest
  rwa [nearest.eq isNearest_zero.1] at denotes

theorem denotes_zero_mul (hx : Denotes x 0) (hy : Denotes y q) : Denotes (x * y) 0 := by
  obtain ⟨r, denotes, nearest⟩ := exists_mul hx hy (by norm_num)
  rw [zero_mul] at nearest
  rwa [nearest.eq isNearest_zero.1] at denotes

theorem denotes_zero_div (hx : Denotes x 0) (hy : Denotes y q) (divisor : q ≠ 0) :
    Denotes (x / y) 0 := by
  obtain ⟨r, denotes, nearest⟩ := exists_div hx hy divisor (by norm_num)
  rw [zero_div] at nearest
  rwa [nearest.eq isNearest_zero.1] at denotes

theorem denotes_sub_zero (hx : Denotes x p) (hy : Denotes y 0) (bounded : |p| ≤ 2 ^ 1000) :
    Denotes (x - y) p := by
  obtain ⟨r, denotes, nearest⟩ := exists_sub hx hy (by rwa [sub_zero])
  rw [sub_zero] at nearest
  rwa [nearest.eq hx.isRepresentable] at denotes

theorem denotes_div_one (hx : Denotes x p) (hy : Denotes y 1) (bounded : |p| ≤ 2 ^ 1000) :
    Denotes (x / y) p := by
  obtain ⟨r, denotes, nearest⟩ := exists_div hx hy one_ne_zero (by rwa [div_one])
  rw [div_one] at nearest
  rwa [nearest.eq hx.isRepresentable] at denotes

end Operations

/-! ### Comparison -/

section Compare

variable {x y : Float} {p q : ℚ} {m n : ℕ} {e f : ℤ} {s t : Sign} {hm : 0 < m} {hn : 0 < n}

/-- Of two canonical floats the one with the larger unit is larger. -/
theorem IsCanonical.magnitude_lt (left : IsCanonical (.finite s m e hm))
    (right : IsCanonical (.finite t n f hn)) (less : e < f) :
    (m : ℚ) * 2 ^ e < n * 2 ^ f := by
  obtain _ | ⟨fits, low, _, _⟩ := left
  obtain _ | ⟨_, _, _, full⟩ := right
  have long : (2 : ℚ) ^ 52 ≤ n := by exact_mod_cast full.resolve_right (by omega)
  have short : (m : ℚ) < 2 ^ 53 := by exact_mod_cast fits
  have units : (2 : ℚ) ^ (e + 1) ≤ 2 ^ f := zpow_le_zpow_right₀ one_le_two (by omega)
  have positive : (0 : ℚ) < 2 ^ e := zpow_pos two_pos e
  calc (m : ℚ) * 2 ^ e < 2 ^ 53 * 2 ^ e := mul_lt_mul_of_pos_right short positive
    _ = 2 ^ 52 * 2 ^ (e + 1) := by rw [zpow_add_one₀ two_ne_zero]; ring
    _ ≤ n * 2 ^ f := by gcongr

theorem IsCanonical.compare_magnitudes (left : IsCanonical (.finite s m e hm))
    (right : IsCanonical (.finite t n f hn)) :
    (compare e f).then (compare m n) = compare ((m : ℚ) * 2 ^ e) (n * 2 ^ f) := by
  rcases lt_trichotomy e f with less | rfl | greater
  · rw [Int.compare_eq_lt.mpr less, compare_lt_iff_lt.mpr (left.magnitude_lt right less)]
    rfl
  · have positive : (0 : ℚ) < 2 ^ e := zpow_pos two_pos e
    rw [Int.compare_eq_eq.mpr rfl]
    show compare m n = _
    rcases lt_trichotomy m n with less | rfl | greater
    · rw [Nat.compare_eq_lt.mpr less,
        compare_lt_iff_lt.mpr (mul_lt_mul_of_pos_right (by exact_mod_cast less) positive)]
    · rw [compare_eq_iff_eq.mpr rfl, compare_eq_iff_eq.mpr rfl]
    · rw [Nat.compare_eq_gt.mpr greater,
        compare_gt_iff_gt.mpr (mul_lt_mul_of_pos_right (by exact_mod_cast greater) positive)]
  · rw [Int.compare_eq_gt.mpr greater, compare_gt_iff_gt.mpr (right.magnitude_lt left greater)]
    rfl

theorem compare_neg (a b : ℚ) : compare (-a) (-b) = (compare a b).swap := by
  rcases lt_trichotomy a b with less | rfl | greater
  · rw [compare_lt_iff_lt.mpr less, compare_gt_iff_gt.mpr (neg_lt_neg less)]
    rfl
  · rw [compare_eq_iff_eq.mpr rfl, compare_eq_iff_eq.mpr rfl]
    rfl
  · rw [compare_gt_iff_gt.mpr greater, compare_lt_iff_lt.mpr (neg_lt_neg greater)]
    rfl

/-- **Floats are compared as the numbers that they denote.** -/
theorem Denotes.compare_eq (hx : Denotes x p) (hy : Denotes y q) :
    UnpackedFloat.compare x.toModel.unpack y.toModel.unpack = some (compare p q) := by
  have canonicalX := isCanonical_unpack hx
  have canonicalY := isCanonical_unpack hy
  unfold Denotes at hx hy
  generalize x.toModel.unpack = u at *
  generalize y.toModel.unpack = v at *
  have magnitude : ∀ {k : ℕ}, 0 < k → ∀ i : ℤ, (0 : ℚ) < k * 2 ^ i := fun positive i =>
    mul_pos (by exact_mod_cast positive) (zpow_pos two_pos i)
  obtain ⟨s, rfl, rfl⟩ | ⟨s, m, e, hm, rfl, rfl⟩ := hx.zero_or_finite
  · obtain ⟨t, rfl, rfl⟩ | ⟨t, n, f, hn, rfl, rfl⟩ := hy.zero_or_finite
    · rfl
    · have above := magnitude hn f
      cases t
      · show some Ordering.gt = some (compare 0 (-((n : ℚ) * 2 ^ f)))
        rw [compare_gt_iff_gt.mpr (neg_lt_zero.mpr above)]
      · show some Ordering.lt = some (compare 0 ((n : ℚ) * 2 ^ f))
        rw [compare_lt_iff_lt.mpr above]
  · have aboveX := magnitude hm e
    obtain ⟨t, rfl, rfl⟩ | ⟨t, n, f, hn, rfl, rfl⟩ := hy.zero_or_finite
    · cases s
      · show some Ordering.lt = some (compare (-((m : ℚ) * 2 ^ e)) 0)
        rw [compare_lt_iff_lt.mpr (neg_lt_zero.mpr aboveX)]
      · show some Ordering.gt = some (compare ((m : ℚ) * 2 ^ e) 0)
        rw [compare_gt_iff_gt.mpr aboveX]
    · have aboveY := magnitude hn f
      have order := canonicalX.compare_magnitudes canonicalY
      cases s <;> cases t
      · show some ((compare e f).then (compare m n)).swap = some (compare (-_) (-_))
        rw [order, compare_neg]
      · show some Ordering.lt = some (compare (-((m : ℚ) * 2 ^ e)) (n * 2 ^ f))
        rw [compare_lt_iff_lt.mpr ((neg_lt_zero.mpr aboveX).trans aboveY)]
      · show some Ordering.gt = some (compare ((m : ℚ) * 2 ^ e) (-(n * 2 ^ f)))
        rw [compare_gt_iff_gt.mpr ((neg_lt_zero.mpr aboveY).trans aboveX)]
      · exact congrArg some order

theorem lt_iff_compare :
    x < y ↔ UnpackedFloat.compare x.toModel.unpack y.toModel.unpack = some .lt := by
  show decide (x.toModel < y.toModel) = true ↔ _
  rw [decide_eq_true_iff]
  show (UnpackedFloat.compare x.toModel.unpack y.toModel.unpack == some .lt) = true ↔ _
  rw [beq_iff_eq]

theorem Denotes.lt_iff (hx : Denotes x p) (hy : Denotes y q) : x < y ↔ p < q := by
  rw [lt_iff_compare, hx.compare_eq hy, Option.some.injEq, compare_lt_iff_lt]

theorem le_iff_compare : x ≤ y ↔
    (UnpackedFloat.compare x.toModel.unpack y.toModel.unpack).any (·.isLE) = true := by
  show decide (x.toModel ≤ y.toModel) = true ↔ _
  rw [decide_eq_true_iff]
  rfl

theorem Denotes.le_iff (hx : Denotes x p) (hy : Denotes y q) : x ≤ y ↔ p ≤ q := by
  rw [le_iff_compare, hx.compare_eq hy, Option.any_some, Ordering.isLE_iff_ne_gt]
  exact compare_le_iff_le

/-- Apart from the zeros, a number is denoted by one float only. -/
theorem Denotes.unique (hx : Denotes x q) (hy : Denotes y q) (nonzero : q ≠ 0) : x = y := by
  have equal : (x == y) = true := by
    show (UnpackedFloat.compare x.toModel.unpack y.toModel.unpack == some .eq) = true
    rw [hx.compare_eq hy, compare_eq_iff_eq.mpr rfl]
    rfl
  rw [Float.beq_iff_ne_nan_and_eq] at equal
  rcases equal.2.2 with same | ⟨rfl, -⟩ | ⟨rfl, -⟩
  · exact same
  · exact absurd (hx : q = 0) nonzero
  · exact absurd (hx : q = 0) nonzero

end Compare

theorem denotes_zero : Denotes 0 0 := by
  have zero : asFloat 0 = 0 := by decide
  have counted : Denotes (asFloat 0) (0 : ℕ) := denotes_asFloat (by decide)
  rwa [zero, Nat.cast_zero] at counted

theorem denotes_one : Denotes 1 1 := by
  have one : asFloat 1 = 1 := by decide
  have counted : Denotes (asFloat 1) (1 : ℕ) := denotes_asFloat (by decide)
  rw [one] at counted
  exact_mod_cast counted

/-- Counts of 53 bits are different floats. -/
theorem asFloat_inj {m n : ℕ} (hm : m < 2 ^ 53) (hn : n < 2 ^ 53) :
    asFloat m = asFloat n ↔ m = n := by
  refine ⟨fun same => ?_, congrArg asFloat⟩
  have order : ∀ {a b : ℕ}, a < 2 ^ 53 → b < 2 ^ 53 → asFloat a = asFloat b → ¬ a < b := by
    intro a b ha hb equal less
    have below := ((denotes_asFloat ha).lt_iff (denotes_asFloat hb)).mpr (by exact_mod_cast less)
    rw [equal, (denotes_asFloat hb).lt_iff (denotes_asFloat hb)] at below
    exact lt_irrefl _ below
  exact Nat.le_antisymm (Nat.le_of_not_lt (order hn hm same.symm))
    (Nat.le_of_not_lt (order hm hn same))

/-! ### Rounding to a count -/

section Counts

variable {x : Float} {q : ℚ}

theorem Binary.numerator_div_denominator (b : Binary) :
    (b.numerator : ℚ) / b.denominator = b.mantissa * 2 ^ b.exponent := by
  unfold Binary.numerator Binary.denominator
  rcases le_total 0 b.exponent with whole | part
  · have none : (-b.exponent).toNat = 0 := by omega
    rw [none]
    have power : ((2 : ℚ)) ^ b.exponent = 2 ^ b.exponent.toNat := by
      rw [← zpow_natCast, Int.toNat_of_nonneg whole]
    simp [power]
  · have none : b.exponent.toNat = 0 := by omega
    rw [none]
    have power : ((2 : ℚ)) ^ b.exponent = (2 ^ (-b.exponent).toNat)⁻¹ := by
      rw [← zpow_natCast, Int.toNat_of_nonneg (by omega), zpow_neg, inv_inv]
    simp [power, div_eq_mul_inv]

theorem Binary.round_eq (b : Binary) :
    b.round = ⌊(b.mantissa : ℚ) * 2 ^ b.exponent + 1 / 2⌋₊ := by
  have positive : (b.denominator : ℚ) ≠ 0 := by
    exact_mod_cast (Nat.two_pow_pos (-b.exponent).toNat).ne'
  have half : (b.mantissa : ℚ) * 2 ^ b.exponent + 1 / 2 =
      ((2 * b.numerator + b.denominator : ℕ) : ℚ) / (2 * b.denominator : ℕ) := by
    rw [← b.numerator_div_denominator]
    push_cast
    field_simp
  rw [half, Nat.floor_div_eq_div]
  rfl

theorem Binary.ceil_eq (b : Binary) : b.ceil = ⌈(b.mantissa : ℚ) * 2 ^ b.exponent⌉₊ := by
  have positive : 0 < b.denominator := Nat.two_pow_pos _
  have above : (0 : ℚ) < b.denominator := by exact_mod_cast positive
  apply eq_of_forall_ge_iff
  intro n
  rw [← b.numerator_div_denominator, Nat.ceil_le, div_le_iff₀ above, mul_comm]
  show b.numerator ⌈/⌉ b.denominator ≤ n ↔ _
  rw [ceilDiv_le_iff_le_mul positive]
  exact_mod_cast Iff.rfl

/-- Rounding a float to a count rounds the number that it denotes, by any rule under which nothing
positive comes of numbers that are not. -/
theorem Denotes.toCount {whole : Binary → ℕ} (hx : Denotes x q) (rounded : ℚ → ℕ)
    (exact : ∀ b, whole b = rounded (b.mantissa * 2 ^ b.exponent))
    (none : ∀ r ≤ 0, rounded r = 0) :
    (FloatValue.ofFloat x).toCount whole = min (rounded q) maxSize := by
  unfold FloatValue.ofFloat
  unfold Denotes at hx
  generalize x.toModel.unpack = u at *
  obtain ⟨s, rfl, rfl⟩ | ⟨s, m, e, hm, rfl, rfl⟩ := hx.zero_or_finite
  · cases s <;> simp [FloatValue.toCount, FloatValue.isMinus, exact, none 0 le_rfl]
  · cases s
    · have negative : signed .negative ((m : ℚ) * 2 ^ e) ≤ 0 := neg_nonpos.mpr (by positivity)
      rw [none _ negative]
      rfl
    · show min (whole ⟨m, e⟩) maxSize = _
      rw [exact]
      rfl

/-- The nearest count to a float is that to the number that it denotes. -/
theorem Denotes.roundToCount (hx : Denotes x q) :
    roundToCount x = min ⌊q + 1 / 2⌋₊ maxSize := by
  apply hx.toCount (fun r => ⌊r + 1 / 2⌋₊) Binary.round_eq
  intro r nonpos
  exact Nat.floor_eq_zero.mpr (by linarith)

/-- The least count above a float is that above the number that it denotes. -/
theorem Denotes.ceilToCount (hx : Denotes x q) : ceilToCount x = min ⌈q⌉₊ maxSize :=
  hx.toCount Nat.ceil Binary.ceil_eq fun _ => Nat.ceil_eq_zero.mpr

/-- A number close to a count rounds to it. -/
theorem roundToCount_of_close (hx : Denotes x q) {n : ℕ} (close : |q - n| < 1 / 2)
    (small : n ≤ maxSize) : roundToCount x = n := by
  obtain ⟨above, below⟩ := abs_lt.mp close
  have count : (0 : ℚ) ≤ n := n.cast_nonneg
  have floor : ⌊q + 1 / 2⌋₊ = n := by
    rw [Nat.floor_eq_iff (by linarith)]
    constructor <;> linarith
  rw [hx.roundToCount, floor, Nat.min_eq_left small]

theorem roundToCount_of_denotes {n : ℕ} (hx : Denotes x n) (small : n ≤ maxSize) :
    roundToCount x = n :=
  roundToCount_of_close hx (by norm_num) small

theorem roundToCount_of_zero (hx : Denotes x 0) : roundToCount x = 0 :=
  roundToCount_of_denotes (by exact_mod_cast hx) (Nat.zero_le _)

/-- A count of 53 bits is far from the largest float. -/
theorem natCast_le_far {n : ℕ} (small : n < 2 ^ 53) : (n : ℚ) ≤ 2 ^ 1000 :=
  calc (n : ℚ) ≤ 2 ^ 53 := by exact_mod_cast small.le
    _ ≤ 2 ^ 1000 := pow_le_pow_right₀ one_le_two (by decide)

/-- The share of a count in a larger one denotes a number between zero and one. -/
theorem exists_share {part whole : ℕ} (positive : 0 < whole) (le : part ≤ whole)
    (small : whole < 2 ^ 53) :
    ∃ q, Denotes (asFloat part / asFloat whole) q ∧ IsNearest q (part / whole) ∧ 0 ≤ q ∧ q ≤ 1 := by
  have above : (0 : ℚ) < whole := by exact_mod_cast positive
  have ratio : (part : ℚ) / whole ≤ 1 := (div_le_one above).mpr (by exact_mod_cast le)
  have nonneg : (0 : ℚ) ≤ part / whole := by positivity
  obtain ⟨q, denotes, nearest⟩ := exists_div (denotes_asFloat (le.trans_lt small))
    (denotes_asFloat small) above.ne'
    (by rw [abs_of_nonneg nonneg]; exact ratio.trans (one_le_pow₀ one_le_two))
  exact ⟨q, denotes, nearest, nearest.ge isNearest_zero.1 nonneg,
    nearest.le isRepresentable_one ratio⟩

/-- A share of a count, rounded, is at most the count. -/
theorem roundToCount_share_mul_le {part whole n : ℕ} (positive : 0 < whole) (le : part ≤ whole)
    (wholeSmall : whole < 2 ^ 53) (small : n < 2 ^ 53) :
    roundToCount (asFloat part / asFloat whole * asFloat n) ≤ n := by
  obtain ⟨q, denotes, -, nonneg, atMostOne⟩ := exists_share positive le wholeSmall
  have above : (0 : ℚ) ≤ n := n.cast_nonneg
  have product : q * n ≤ n := mul_le_of_le_one_left above atMostOne
  obtain ⟨r, rounded, nearest⟩ := exists_mul denotes (denotes_asFloat small)
    (by rw [abs_of_nonneg (mul_nonneg nonneg above)]; exact product.trans (natCast_le_far small))
  have atMost : r ≤ n := nearest.le (isRepresentable_natCast small) product
  rw [rounded.roundToCount]
  refine (Nat.min_le_left _ _).trans (Nat.lt_succ_iff.mp ((Nat.floor_lt' n.succ_ne_zero).mpr ?_))
  push_cast
  linarith

/-- A share of a count, rounded, is below every power of two that the count is not above. -/
theorem roundToCount_mul_le {n k : ℕ} (share : Denotes x q) (nonneg : 0 ≤ q) (atMostOne : q ≤ 1)
    (small : n ≤ 2 ^ k) (bits : k < 64) : roundToCount (x * asFloat n) ≤ 2 ^ k := by
  have top : IsRepresentable (2 ^ k) := isRepresentable_two_pow k
  obtain ⟨r, counted, nearCount⟩ :=
    exists_asFloat (small.trans_lt (Nat.pow_lt_pow_right one_lt_two bits))
  have below : r ≤ 2 ^ k := nearCount.le top (by exact_mod_cast small)
  have above : 0 ≤ r := nearCount.ge isNearest_zero.1 n.cast_nonneg
  have product : q * r ≤ 2 ^ k := (mul_le_of_le_one_left above atMostOne).trans below
  obtain ⟨s, rounded, nearProduct⟩ := exists_mul share counted (by
    rw [abs_of_nonneg (mul_nonneg nonneg above)]
    exact product.trans (pow_le_pow_right₀ one_le_two (by omega)))
  have atMost : s ≤ 2 ^ k := nearProduct.le top product
  rw [rounded.roundToCount]
  refine (Nat.min_le_left _ _).trans
    (Nat.lt_succ_iff.mp ((Nat.floor_lt' (Nat.succ_ne_zero _)).mpr ?_))
  push_cast
  linarith

/-- What is no number counts as nothing, and so does a product with it. -/
theorem roundToCount_nan_mul (nan : x.toModel.unpack = .notANumber) (y : Float) :
    roundToCount (x * y) = 0 := by
  have product : UnpackedFloat.mul Format.binary64 x.toModel.unpack y.toModel.unpack =
      .notANumber := by
    rw [nan]
    cases y.toModel.unpack <;> simp only [UnpackedFloat.mul]
  show (FloatValue.ofFloat (Float.ofModel (Float.Model.pack (UnpackedFloat.mul Format.binary64
    x.toModel.unpack y.toModel.unpack)))).toCount Binary.round = 0
  rw [product]
  rfl

end Counts

end Columnar
