import Mathlib

/-!
# Nearest values

The result of a float operation is the exact result, rounded to a value that a float can hold.
`IsRepresentable` are these values, without a bound on their size, and `IsNearest` says that one of
them is as close to a number as any. Two facts carry every order argument on floats: a
representable bound of the exact result bounds the rounded one (`IsNearest.le`, `IsNearest.ge`), and
a representable result is not rounded (`IsNearest.eq`). `isNearest_grid` is how a rounding is shown
to be nearest: it need only be nearest among the multiples of a unit that is fine enough.
-/

namespace Columnar

/-- A number of 53 bits, times a power of two that is not below the least float. -/
def IsRepresentable (q : ℚ) : Prop :=
  ∃ (mantissa : ℕ) (exponent : ℤ),
    mantissa < 2 ^ 53 ∧ -1074 ≤ exponent ∧ |q| = mantissa * 2 ^ exponent

/-- A representable number that is as close to `q` as any. -/
def IsNearest (r q : ℚ) : Prop :=
  IsRepresentable r ∧ ∀ s, IsRepresentable s → |r - q| ≤ |s - q|

theorem isRepresentable_natCast {n : ℕ} (small : n < 2 ^ 53) : IsRepresentable n :=
  ⟨n, 0, small, by decide, by simp⟩

theorem isRepresentable_two_pow (k : ℕ) : IsRepresentable (2 ^ k) :=
  ⟨1, k, by decide, by omega, by rw [abs_of_nonneg (by positivity)]; simp⟩

theorem isRepresentable_one : IsRepresentable 1 := by
  exact_mod_cast isRepresentable_natCast (n := 1) (by decide)

theorem IsRepresentable.neg {q : ℚ} (h : IsRepresentable q) : IsRepresentable (-q) := by
  obtain ⟨mantissa, exponent, fits, low, value⟩ := h
  exact ⟨mantissa, exponent, fits, low, by rw [abs_neg, value]⟩

namespace IsNearest

variable {r q s : ℚ}

theorem refl (rep : IsRepresentable q) : IsNearest q q := ⟨rep, fun s _ => by simp⟩

theorem le (nearest : IsNearest r q) (rep : IsRepresentable s) (bound : q ≤ s) : r ≤ s := by
  have closer := nearest.2 s rep
  by_contra beyond
  rw [abs_of_nonneg (by linarith), abs_of_nonneg (by linarith)] at closer
  linarith

theorem neg (nearest : IsNearest r q) : IsNearest (-r) (-q) := by
  refine ⟨nearest.1.neg, fun s rep => ?_⟩
  have closer := nearest.2 (-s) rep.neg
  rw [← abs_neg (r - q), ← abs_neg (-s - q)] at closer
  convert closer using 2 <;> ring

theorem ge (nearest : IsNearest r q) (rep : IsRepresentable s) (bound : s ≤ q) : s ≤ r := by
  have opposite := nearest.neg.le rep.neg (neg_le_neg bound)
  exact neg_le_neg_iff.mp opposite

theorem eq (nearest : IsNearest r q) (rep : IsRepresentable q) : r = q :=
  le_antisymm (nearest.le rep le_rfl) (nearest.ge rep le_rfl)

/-- Of two different numbers the larger is not rounded to less. -/
theorem mono {r' q' : ℚ} (nearest : IsNearest r q) (nearest' : IsNearest r' q') (less : q < q') :
    r ≤ r' := by
  by_contra reversed
  -- both numbers would lie beyond the middle between `r'` and `r`
  have above := sq_le_sq.mpr (nearest.2 r' nearest'.1)
  have below := sq_le_sq.mpr (nearest'.2 r nearest.1)
  nlinarith

end IsNearest

/-! ### The error of a rounding -/

/-- A number that is not tiny has a representable one below it, closer than a unit in the last of
its 53 bits. -/
theorem exists_representable_below {q : ℚ} (far : 2 ^ (-1000 : ℤ) ≤ q) :
    ∃ s, IsRepresentable s ∧ s ≤ q ∧ q - s ≤ q / 2 ^ 52 := by
  have positive : 0 < q := (zpow_pos two_pos _).trans_le far
  obtain ⟨k, low, high⟩ := exists_mem_Ico_zpow positive (one_lt_two : (1 : ℚ) < 2)
  have unit : (0 : ℚ) < 2 ^ (k - 52) := zpow_pos two_pos _
  have whole : (2 : ℚ) ^ k = 2 ^ 52 * 2 ^ (k - 52) := by
    rw [← zpow_natCast, ← zpow_add₀ two_ne_zero]
    congr 1
    push_cast
    ring
  have long : -1000 ≤ k := by
    have less : (2 : ℚ) ^ (-1000 : ℤ) < 2 ^ (k + 1) := far.trans_lt high
    have := (zpow_lt_zpow_iff_right₀ (one_lt_two : (1 : ℚ) < 2)).mp less
    omega
  have below := Nat.floor_le (div_nonneg positive.le unit.le)
  have next := Nat.lt_floor_add_one (q / 2 ^ (k - 52))
  rw [le_div_iff₀ unit] at below
  rw [div_lt_iff₀ unit] at next
  refine ⟨⌊q / 2 ^ (k - 52)⌋₊ * 2 ^ (k - 52), ⟨_, k - 52, ?_, by omega, abs_of_nonneg ?_⟩,
    below, ?_⟩
  · rw [Nat.floor_lt (div_nonneg positive.le unit.le), div_lt_iff₀ unit]
    rw [zpow_add_one₀ two_ne_zero, whole] at high
    push_cast
    linarith
  · positivity
  · rw [whole] at low
    linarith

/-- Rounding changes a number that is not tiny by a small part of it only. -/
theorem IsNearest.error_le {r q : ℚ} (nearest : IsNearest r q) (far : 2 ^ (-1000 : ℤ) ≤ q) :
    |r - q| ≤ q / 2 ^ 52 := by
  obtain ⟨s, rep, below, close⟩ := exists_representable_below far
  calc |r - q| ≤ |s - q| := nearest.2 s rep
    _ = q - s := by rw [abs_sub_comm, abs_of_nonneg (sub_nonneg.mpr below)]
    _ ≤ q / 2 ^ 52 := close

/-! ### Rounding to multiples of a unit -/

section Grid

variable {exponent unit : ℤ} {x : ℚ}

/-- A representable number is a multiple of every finer unit. -/
theorem IsRepresentable.eq_mul_unit {s : ℚ} {mantissa : ℕ}
    (value : |s| = mantissa * 2 ^ exponent) (finer : unit ≤ exponent) :
    ∃ k : ℤ, s = k * 2 ^ unit := by
  have split : (2 : ℚ) ^ exponent = 2 ^ (exponent - unit).toNat * 2 ^ unit := by
    rw [← zpow_natCast, ← zpow_add₀ two_ne_zero, Int.toNat_of_nonneg (by omega)]
    congr 1
    omega
  rcases abs_choice s with same | opposite
  · refine ⟨mantissa * 2 ^ (exponent - unit).toNat, ?_⟩
    rw [← same, value, split]
    push_cast
    ring
  · refine ⟨-(mantissa * 2 ^ (exponent - unit).toNat), ?_⟩
    rw [← neg_neg s, ← opposite, value, split]
    push_cast
    ring

/-- Rounding to a multiple of a unit is rounding to the nearest representable number, if the unit is
the least one or the number has at least 53 bits before it. -/
theorem isNearest_grid {n : ℕ} (low : -1074 ≤ unit) (fits : n ≤ 2 ^ 53)
    (fine : 2 ^ 52 ≤ x ∨ unit = -1074) (nearest : ∀ k : ℤ, |(n : ℚ) - x| ≤ |(k : ℚ) - x|) :
    IsNearest (n * 2 ^ unit) (x * 2 ^ unit) := by
  have positive : (0 : ℚ) < 2 ^ unit := zpow_pos two_pos unit
  have distance : ∀ a : ℚ, |a * 2 ^ unit - x * 2 ^ unit| = |a - x| * 2 ^ unit := by
    intro a
    rw [← sub_mul, abs_mul, abs_of_pos positive]
  refine ⟨?_, ?_⟩
  · rcases fits.lt_or_eq with small | top
    · exact ⟨n, unit, small, low, abs_of_nonneg (by positivity)⟩
    · refine ⟨2 ^ 52, unit + 1, by norm_num, by omega, ?_⟩
      rw [abs_of_nonneg (by positivity), top, zpow_add_one₀ two_ne_zero]
      push_cast
      ring
  · rintro s ⟨mantissa, exponent, small, above, value⟩
    by_cases finer : unit ≤ exponent
    · obtain ⟨k, rfl⟩ := IsRepresentable.eq_mul_unit value finer
      rw [distance, distance]
      exact mul_le_mul_of_nonneg_right (nearest k) positive.le
    · -- a coarser mantissa at a finer unit stays below the numbers of full length
      have full : 2 ^ 52 ≤ x := fine.resolve_right (by omega)
      have below : s ≤ 2 ^ 52 * 2 ^ unit := by
        have bits : (mantissa : ℚ) ≤ 2 ^ 53 := by exact_mod_cast small.le
        have half : (2 : ℚ) ^ exponent ≤ 2 ^ (unit - 1) :=
          zpow_le_zpow_right₀ one_le_two (by omega)
        calc s ≤ |s| := le_abs_self s
          _ ≤ 2 ^ 53 * 2 ^ (unit - 1) := by rw [value]; gcongr
          _ = 2 ^ 52 * 2 ^ unit := by rw [zpow_sub_one₀ two_ne_zero]; ring
      have corner : |(n : ℚ) - x| ≤ x - 2 ^ 52 := by
        have closer := nearest (2 ^ 52)
        rwa [Int.cast_pow, Int.cast_ofNat, abs_sub_comm (2 ^ 52 : ℚ) x,
          abs_of_nonneg (sub_nonneg.mpr full)] at closer
      calc |n * 2 ^ unit - x * 2 ^ unit| = |(n : ℚ) - x| * 2 ^ unit := distance n
        _ ≤ (x - 2 ^ 52) * 2 ^ unit := mul_le_mul_of_nonneg_right corner positive.le
        _ = x * 2 ^ unit - 2 ^ 52 * 2 ^ unit := by ring
        _ ≤ x * 2 ^ unit - s := by linarith
        _ ≤ |s - x * 2 ^ unit| := by rw [abs_sub_comm]; exact le_abs_self _

end Grid

end Columnar
