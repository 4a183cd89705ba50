import Columnar.Proofs.Float.Nearest

/-!
# Rounding in the float model

How the model of floats rounds: a mantissa is shifted to the place where a float holds it, two bits
and their order of magnitude remember what was shifted out (`Represents`), and the mantissa is
rounded by them. The rounded mantissa is nearest among the whole numbers
(`Represents.nearest`), so the rounded float is nearest among the representable ones
(`exists_nearest`), as long as it is far from the largest float. The mantissa that is rounded must
be long enough or its unit small enough (`Ready`), which products and quotients see to.
-/

namespace Columnar

open Float.Model Float.Model.UnpackedFloat

/-- A magnitude with its sign. -/
def signed : Sign → ℚ → ℚ
  | .positive, q => q
  | .negative, q => -q

/-- A finite unpacked float has a value. -/
def HasValue : UnpackedFloat → ℚ → Prop
  | .zero _, q => q = 0
  | .finite sign mantissa exponent _, q => q = signed sign (mantissa * 2 ^ exponent)
  | _, _ => False

/-- What has a value is a zero, or a mantissa of units with a sign. -/
theorem HasValue.zero_or_finite {u : UnpackedFloat} {q : ℚ} (value : HasValue u q) :
    (∃ s, u = .zero s ∧ q = 0) ∨
      ∃ s m e positive, u = .finite s m e positive ∧ q = signed s (m * 2 ^ e) := by
  cases u with
  | notANumber => exact value.elim
  | infinity => exact value.elim
  | zero s => exact .inl ⟨s, rfl, value⟩
  | finite s m e positive => exact .inr ⟨s, m, e, positive, rfl, value⟩

/-- A finite unpacked float as the model holds it: of full length unless its unit is the least. -/
inductive IsCanonical : UnpackedFloat → Prop
  | zero (sign : Sign) : IsCanonical (.zero sign)
  | finite {sign : Sign} {mantissa : ℕ} {exponent : ℤ} {positive : 0 < mantissa}
      (fits : mantissa < 2 ^ 53) (low : -1074 ≤ exponent) (high : exponent ≤ 971)
      (full : 2 ^ 52 ≤ mantissa ∨ exponent = -1074) :
      IsCanonical (.finite sign mantissa exponent positive)

/-! ### The bits behind a mantissa -/

/-- Where a part of a unit lies, as an accuracy tells it. -/
def Describes : Accuracy → ℚ → Prop
  | .exact, part => part = 0
  | .inexact .lt, part => 0 < part ∧ part < 1 / 2
  | .inexact .eq, part => part = 1 / 2
  | .inexact .gt, part => 1 / 2 < part ∧ part < 1

/-- A mantissa and the bits behind it stand for a number. -/
def Represents (em : ExtendedMantissa) (x : ℚ) : Prop :=
  Describes em.accuracy (x - em.mantissa)

section Bits

variable {em : ExtendedMantissa} {accuracy : Accuracy} {x part : ℚ}

theorem describes_exact : Describes .exact 0 := rfl

theorem Describes.nonneg (h : Describes accuracy part) : 0 ≤ part := by
  rcases accuracy with _ | (_ | _ | _) <;> simp only [Describes] at h <;> linarith

theorem Describes.lt_one (h : Describes accuracy part) : part < 1 := by
  rcases accuracy with _ | (_ | _ | _) <;> simp only [Describes] at h <;> linarith

theorem represents_ofMantissaAndAccuracy {mantissa : ℕ} (h : Describes accuracy part) :
    Represents (.ofMantissaAndAccuracy mantissa accuracy) (mantissa + part) := by
  rcases accuracy with _ | (_ | _ | _) <;>
    simpa [Represents, ExtendedMantissa.ofMantissaAndAccuracy, ExtendedMantissa.accuracy] using h

/-- The bits that are shifted out together tell whether anything is. -/
theorem Represents.rest (h : Represents em x) :
    ((em.roundBit || em.stickyBit) = false ∧ x = em.mantissa) ∨
      ((em.roundBit || em.stickyBit) = true ∧ (em.mantissa : ℚ) < x ∧ x < em.mantissa + 1) := by
  obtain ⟨mantissa, roundBit, stickyBit⟩ := em
  have below := Describes.nonneg h
  have above := Describes.lt_one h
  cases roundBit <;> cases stickyBit <;>
    simp only [Represents, ExtendedMantissa.accuracy, Describes] at h
  · exact Or.inl ⟨rfl, by linarith⟩
  · exact Or.inr ⟨rfl, by linarith, by linarith⟩
  · exact Or.inr ⟨rfl, by linarith, by linarith⟩
  · exact Or.inr ⟨rfl, by linarith, by linarith⟩

theorem Represents.shiftRightOne (h : Represents em x) : Represents em.shiftRightOne (x / 2) := by
  have halves : (em.mantissa : ℚ) = 2 * (em.mantissa / 2 : ℕ) + (em.mantissa % 2 : ℕ) := by
    exact_mod_cast (Nat.div_add_mod em.mantissa 2).symm
  unfold Represents ExtendedMantissa.shiftRightOne
  rcases Nat.mod_two_eq_zero_or_one em.mantissa with even | odd
  · have bit : (em.mantissa % 2 != 0) = false := by rw [even]; rfl
    rw [even, Nat.cast_zero] at halves
    rcases h.rest with ⟨none, exact⟩ | ⟨some, low, high⟩
    · simp only [bit, none, ExtendedMantissa.accuracy, Describes]
      linarith
    · simp only [bit, some, ExtendedMantissa.accuracy, Describes]
      constructor <;> linarith
  · have bit : (em.mantissa % 2 != 0) = true := by rw [odd]; rfl
    rw [odd, Nat.cast_one] at halves
    rcases h.rest with ⟨none, exact⟩ | ⟨some, low, high⟩
    · simp only [bit, none, ExtendedMantissa.accuracy, Describes]
      linarith
    · simp only [bit, some, ExtendedMantissa.accuracy, Describes]
      constructor <;> linarith

theorem Represents.shiftRight (h : Represents em x) (places : ℕ) :
    Represents (em >>> places) (x / 2 ^ places) := by
  show Represents (places.repeat ExtendedMantissa.shiftRightOne em) _
  induction places with
  | zero => simpa [Nat.repeat] using h
  | succ places ih =>
    rw [pow_succ, ← div_div]
    exact ih.shiftRightOne

/-- **A rounded mantissa is a nearest whole number.** -/
theorem Represents.nearest (h : Represents em x) (k : ℤ) :
    |(em.roundedMantissa : ℚ) - x| ≤ |(k : ℚ) - x| := by
  obtain ⟨part, rfl⟩ : ∃ part, x = em.mantissa + part := ⟨x - em.mantissa, by ring⟩
  have described : Describes em.accuracy part := by simpa [Represents] using h
  have below := described.nonneg
  have above := described.lt_one
  have apart : (k : ℚ) ≤ em.mantissa ∨ (em.mantissa : ℚ) + 1 ≤ k := by
    rcases le_or_gt k em.mantissa with low | high
    · exact Or.inl (by exact_mod_cast low)
    · exact Or.inr (by exact_mod_cast high)
  have far : min part (1 - part) ≤ |(k : ℚ) - (em.mantissa + part)| := by
    rcases apart with low | high
    · rw [abs_of_nonpos (by linarith)]
      exact (min_le_left _ _).trans (by linarith)
    · rw [abs_of_nonneg (by linarith)]
      exact (min_le_right _ _).trans (by linarith)
  refine le_trans ?_ far
  unfold ExtendedMantissa.roundedMantissa
  rcases accuracy : em.accuracy with _ | (_ | _ | _) <;> rw [accuracy] at described <;>
    simp only [Describes] at described <;> simp only [Accuracy.roundToNearestEven]
  · rw [described]
    simp
  · rw [abs_of_nonpos (by linarith), le_min_iff]
    constructor <;> linarith
  · -- at a half, both neighbours are equally near
    rw [described]
    rcases Nat.mod_two_eq_zero_or_one em.mantissa with even | odd
    · rw [even]; norm_num
    · rw [odd]; norm_num
  · push_cast
    rw [abs_of_nonneg (by linarith), le_min_iff]
    constructor <;> linarith

theorem Represents.le_roundedMantissa (h : Represents em x) {k : ℕ} (bound : (k : ℚ) ≤ x) :
    k ≤ em.roundedMantissa := by
  have closer : |(em.roundedMantissa : ℚ) - x| ≤ |(k : ℚ) - x| := h.nearest k
  rw [abs_of_nonpos (by linarith : (k : ℚ) - x ≤ 0)] at closer
  have near := (abs_le.mp closer).1
  exact_mod_cast (by linarith : (k : ℚ) ≤ em.roundedMantissa)

theorem Represents.roundedMantissa_le (h : Represents em x) {k : ℕ} (bound : x ≤ k) :
    em.roundedMantissa ≤ k := by
  have closer : |(em.roundedMantissa : ℚ) - x| ≤ |(k : ℚ) - x| := h.nearest k
  rw [abs_of_nonneg (by linarith : 0 ≤ (k : ℚ) - x)] at closer
  have near := (abs_le.mp closer).2
  exact_mod_cast (by linarith : (em.roundedMantissa : ℚ) ≤ k)

end Bits

/-! ### Shifting to the place of a float -/

/-- A mantissa that need not be made longer: it fills a float, or its unit is small enough. -/
def Ready (mantissa : ℕ) (exponent : ℤ) : Prop := 52 ≤ mantissa.log2 ∨ exponent ≤ -1074

section Shift

variable {mantissa n : ℕ} {exponent unit : ℤ} {accuracy : Accuracy} {part x : ℚ}

theorem targetExponent_eq (mantissa : ℕ) (exponent : ℤ) :
    Format.binary64.targetExponent (totalExponent mantissa exponent) =
      max (mantissa.log2 + exponent - 52) (-1074) := by
  simp only [Format.targetExponent, totalExponent, Format.mantissaBits, Format.minExponent]
  omega

/-- A number at the place where a float holds it: its unit is representable, and it is long enough
unless the unit is the least one. -/
structure Placed64 (x : ℚ) (unit : ℤ) : Prop where
  low : -1074 ≤ unit
  fits : x < 2 ^ 53
  full : 2 ^ 52 ≤ x ∨ unit = -1074

theorem exists_placed (ready : Ready mantissa exponent) (h : Describes accuracy part) :
    ∃ em unit x, shiftToTargetExponent Format.binary64 mantissa exponent accuracy = (em, unit) ∧
      Represents em x ∧ Placed64 x unit ∧ x * 2 ^ unit = (mantissa + part) * 2 ^ exponent := by
  have target := targetExponent_eq mantissa exponent
  obtain ⟨places, shift⟩ : ∃ places : ℕ,
      (Format.binary64.targetExponent (totalExponent mantissa exponent) - exponent).toNat =
        places := ⟨_, rfl⟩
  have unit : exponent + places = max (mantissa.log2 + exponent - 52) (-1074) := by
    unfold Ready at ready
    omega
  have below := h.nonneg
  have above := h.lt_one
  have size : (mantissa : ℚ) + 1 ≤ 2 ^ (mantissa.log2 + 1) := by
    exact_mod_cast Nat.lt_log2_self
  refine ⟨_, exponent + places, (mantissa + part) / 2 ^ places, ?_,
    (represents_ofMantissaAndAccuracy h).shiftRight places, ⟨by omega, ?_, ?_⟩, ?_⟩
  · simp only [shiftToTargetExponent, shiftToExponent, shift]
  · rw [div_lt_iff₀ (by positivity), ← pow_add]
    calc (mantissa : ℚ) + part < 2 ^ (mantissa.log2 + 1) := by linarith
      _ ≤ 2 ^ (53 + places) := pow_le_pow_right₀ one_le_two (by omega)
  · by_cases least : exponent + places = -1074
    · exact Or.inr least
    · left
      have length : 52 + places = mantissa.log2 := by omega
      have long : (2 : ℚ) ^ mantissa.log2 ≤ mantissa := by
        exact_mod_cast Nat.log2_self_le (by rintro rfl; simp at length)
      rw [le_div_iff₀ (by positivity), ← pow_add, length]
      linarith
  · rw [zpow_add₀ two_ne_zero, zpow_natCast]
    field_simp

/-- A mantissa in its place stays there. -/
theorem shiftToTargetExponent_exact (small : n < 2 ^ 53) (low : -1074 ≤ unit) :
    shiftToTargetExponent Format.binary64 n unit .exact = (⟨n, false, false⟩, unit) := by
  have length : n.log2 ≤ 52 := by
    by_cases zero : n = 0
    · simp [zero]
    · exact Nat.le_of_lt_succ ((Nat.log2_lt zero).mpr small)
  have still : (Format.binary64.targetExponent (totalExponent n unit) - unit).toNat = 0 := by
    rw [targetExponent_eq]
    omega
  simp only [shiftToTargetExponent, shiftToExponent, still]
  simp [HShiftRight.hShiftRight, Nat.repeat, ExtendedMantissa.ofMantissaAndAccuracy]

/-- A mantissa that has become too long by rounding is moved one place further. -/
theorem shiftToTargetExponent_carry (low : -1074 ≤ unit) :
    shiftToTargetExponent Format.binary64 (2 ^ 53) unit .exact =
      (⟨2 ^ 52, false, false⟩, unit + 1) := by
  have once : (Format.binary64.targetExponent (totalExponent (2 ^ 53) unit) - unit).toNat = 1 := by
    rw [targetExponent_eq, Nat.log2_two_pow]
    omega
  simp only [shiftToTargetExponent, shiftToExponent, once]
  simp [HShiftRight.hShiftRight, Nat.repeat, ExtendedMantissa.ofMantissaAndAccuracy,
    ExtendedMantissa.shiftRightOne]

/-- The float of a rounded mantissa. -/
def settle (sign : Sign) (n : ℕ) (unit : ℤ) : UnpackedFloat :=
  if zero : n = 0 then .zero sign
  else if n < 2 ^ 53 then .finite sign n unit (Nat.pos_of_ne_zero zero)
  else .finite sign (2 ^ 52) (unit + 1) (by decide)

theorem roundWithAccuracy_eq_settle (sign : Sign) {em : ExtendedMantissa}
    (shifted : shiftToTargetExponent Format.binary64 mantissa exponent accuracy = (em, unit))
    (low : -1074 ≤ unit) (fits : em.roundedMantissa ≤ 2 ^ 53) :
    roundWithAccuracy Format.binary64 sign mantissa exponent accuracy =
      settle sign em.roundedMantissa unit := by
  unfold roundWithAccuracy settle
  rw [shifted]
  rcases fits.lt_or_eq with small | carry
  · simp only [shiftToTargetExponent_exact small low, small, if_true]
  · simp only [carry, shiftToTargetExponent_carry low]
    rfl

theorem hasValue_settle (sign : Sign) (fits : n ≤ 2 ^ 53) :
    HasValue (settle sign n unit) (signed sign (n * 2 ^ unit)) := by
  unfold settle
  split
  · rename_i zero
    rw [zero]
    cases sign <;> simp [HasValue, signed]
  · split
    · rfl
    · have carry : n = 2 ^ 53 := by omega
      show signed sign _ = signed sign _
      rw [carry, zpow_add_one₀ two_ne_zero]
      congr 1
      push_cast
      ring

theorem isCanonical_settle (sign : Sign) (low : -1074 ≤ unit) (high : unit ≤ 970)
    (full : 2 ^ 52 ≤ n ∨ unit = -1074) : IsCanonical (settle sign n unit) := by
  unfold settle
  split
  · exact .zero sign
  · split
    · rename_i small
      exact .finite small low (by omega) full
    · exact .finite (by decide) (by omega) (by omega) (Or.inl le_rfl)

end Shift

/-! ### Packing -/

section Packing

variable {sign : Sign} {mantissa : ℕ} {exponent : ℤ} {positive : 0 < mantissa}

/-- A number of full length keeps its first bit to itself. -/
theorem toNat_implicit (m : BitVec 52) : (1#1 ++ m).toNat = 2 ^ 52 + m.toNat := by
  rw [BitVec.toNat_append, ← Nat.shiftLeft_add_eq_or_of_lt m.isLt]
  rfl

theorem unpack_pack_normal (fits : mantissa < 2 ^ 53) (full : 2 ^ 52 ≤ mantissa)
    (low : -1074 ≤ exponent) (high : exponent ≤ 971) :
    (Float.Model.pack (.finite sign mantissa exponent positive)).unpack =
      .finite sign mantissa exponent positive := by
  have length : mantissa.log2 + 1 = 53 := by
    rw [(Nat.log2_eq_iff positive.ne').mpr ⟨full, fits⟩]
  obtain ⟨biased, place⟩ : ∃ biased : ℕ, exponent = biased - 1075 :=
    ⟨(exponent + 1075).toNat, by omega⟩
  have shifted : (exponent + (Format.binary64.exponentBias : ℤ) + (52 : ℕ)).toNat = biased := by
    rw [show (Format.binary64.exponentBias : ℤ) = 1023 from rfl]
    omega
  have packed : UnpackedFloat.pack Format.binary64 (.finite sign mantissa exponent positive) =
      packComponents Format.binary64 sign (BitVec.ofNat 11 biased) (BitVec.ofNat 52 mantissa) := by
    simp only [UnpackedFloat.pack, shifted, length]
    rw [if_neg (by omega), if_pos (by rfl)]
  have biasedBits : (BitVec.ofNat 11 biased).toNat = biased := by
    rw [BitVec.toNat_ofNat]
    exact Nat.mod_eq_of_lt (by omega)
  have notInfinite : BitVec.ofNat 11 biased ≠ -1#11 := by
    rw [ne_eq, ← BitVec.toNat_inj, biasedBits]
    show biased ≠ 2047
    omega
  have notZero : BitVec.ofNat 11 biased ≠ 0#11 := by
    rw [ne_eq, ← BitVec.toNat_inj, biasedBits]
    show biased ≠ 0
    omega
  have bits : (1#1 ++ BitVec.ofNat 52 mantissa).toNat = mantissa := by
    rw [toNat_implicit, BitVec.toNat_ofNat]
    omega
  show UnpackedFloat.unpack _ (UnpackedFloat.pack _ _) = _
  rw [packed]
  simp only [UnpackedFloat.unpack, unpackExponent_packComponents, unpackMantissa_packComponents,
    unpackSign_packComponents, Sign.ofBitVec_toBitVec, notInfinite, notZero, if_false, bits,
    biasedBits, place]
  rfl

theorem unpack_pack_short (small : mantissa < 2 ^ 52) :
    (Float.Model.pack (.finite sign mantissa (-1074) positive)).unpack =
      .finite sign mantissa (-1074) positive := by
  have length : mantissa.log2 + 1 ≠ 53 := by
    have := (Nat.log2_lt positive.ne').mpr small
    omega
  have packed : UnpackedFloat.pack Format.binary64 (.finite sign mantissa (-1074) positive) =
      packComponents Format.binary64 sign 0#11 (BitVec.ofNat 52 mantissa) := by
    simp only [UnpackedFloat.pack]
    rw [if_neg (by decide), if_neg (by exact length)]
  have bits : (BitVec.ofNat 52 mantissa).toNat = mantissa := by
    rw [BitVec.toNat_ofNat]
    exact Nat.mod_eq_of_lt small
  have notZero : BitVec.ofNat 52 mantissa ≠ 0#52 := by
    rw [ne_eq, ← BitVec.toNat_inj, bits]
    exact positive.ne'
  have notInfinite : (0#11) ≠ -1#11 := by decide
  show UnpackedFloat.unpack _ (UnpackedFloat.pack _ _) = _
  rw [packed]
  simp only [UnpackedFloat.unpack, unpackExponent_packComponents, unpackMantissa_packComponents,
    unpackSign_packComponents, Sign.ofBitVec_toBitVec, notInfinite, notZero, if_false, if_true,
    dite_false, bits]
  rfl

theorem unpack_pack {u : UnpackedFloat} (canonical : IsCanonical u) :
    (Float.Model.pack u).unpack = u := by
  cases canonical with
  | zero sign => cases sign <;> rfl
  | @finite sign mantissa exponent positive fits low high full =>
    by_cases long : 2 ^ 52 ≤ mantissa
    · exact unpack_pack_normal fits long low high
    · obtain rfl := full.resolve_left long
      exact unpack_pack_short (Nat.lt_of_not_le long)

/-- What the model unpacks is canonical, if it is finite. -/
theorem isCanonical_unpack {v : Float.Model} {q : ℚ} (value : HasValue v.unpack q) :
    IsCanonical v.unpack := by
  have mantissaBits : (@unpackMantissa Format.binary64 v.toBits.toBitVec).toNat < 2 ^ 52 :=
    BitVec.isLt _
  have exponentBits : (@unpackExponent Format.binary64 v.toBits.toBitVec).toNat < 2 ^ 11 :=
    BitVec.isLt _
  unfold Float.Model.unpack UnpackedFloat.unpack at value ⊢
  dsimp only at value ⊢
  by_cases infinite : @unpackExponent Format.binary64 v.toBits.toBitVec = -1#11
  · rw [if_pos infinite] at value
    split at value <;> exact value.elim
  rw [if_neg infinite]
  by_cases least : @unpackExponent Format.binary64 v.toBits.toBitVec = 0#11
  · rw [if_pos least]
    split
    · exact .zero _
    · refine .finite (by omega) ?_ ?_ (Or.inr ?_) <;> rw [least] <;> decide
  · rw [if_neg least]
    have below : (@unpackExponent Format.binary64 v.toBits.toBitVec).toNat ≠ 2047 :=
      fun all => infinite (BitVec.eq_of_toNat_eq all)
    have above : (@unpackExponent Format.binary64 v.toBits.toBitVec).toNat ≠ 0 :=
      fun none => least (BitVec.eq_of_toNat_eq none)
    have bias : ((Format.binary64.exponentBias : ℕ) : ℤ) = 1023 := rfl
    refine .finite ?_ ?_ ?_ (Or.inl ?_)
    · rw [toNat_implicit]; omega
    · rw [bias]; omega
    · rw [bias]; omega
    · rw [toNat_implicit]; omega

end Packing

/-! ### Rounding to the nearest float -/

/-- **Rounding is to nearest.** A mantissa that is ready, together with the part of a unit behind
it, is rounded to a nearest representable number, as long as that is far from the largest float. -/
theorem exists_nearest (sign : Sign) {mantissa : ℕ} {exponent : ℤ} {accuracy : Accuracy} {part : ℚ}
    (ready : Ready mantissa exponent) (h : Describes accuracy part)
    (bounded : (mantissa + part) * 2 ^ exponent ≤ 2 ^ 1000) :
    ∃ r, HasValue (Float.Model.pack
        (roundWithAccuracy Format.binary64 sign mantissa exponent accuracy)).unpack
        (signed sign r) ∧
      IsNearest r ((mantissa + part) * 2 ^ exponent) := by
  obtain ⟨em, unit, x, shifted, represents, ⟨low, fits, full⟩, value⟩ := exists_placed ready h
  have roundedFits : em.roundedMantissa ≤ 2 ^ 53 :=
    represents.roundedMantissa_le (by exact_mod_cast fits.le)
  have roundedFull : 2 ^ 52 ≤ em.roundedMantissa ∨ unit = -1074 :=
    full.imp_left fun long => represents.le_roundedMantissa (by exact_mod_cast long)
  have high : unit ≤ 970 := by
    rcases full with long | rfl
    · have size : (2 : ℚ) ^ (52 + unit) ≤ 2 ^ (1000 : ℤ) := by
        calc (2 : ℚ) ^ (52 + unit) = 2 ^ 52 * 2 ^ unit := by
              rw [zpow_add₀ two_ne_zero]
              rfl
          _ ≤ x * 2 ^ unit := by gcongr
          _ ≤ 2 ^ (1000 : ℤ) := by rw [value]; exact_mod_cast bounded
      have exponents := (zpow_le_zpow_iff_right₀ one_lt_two).mp size
      omega
    · decide
  rw [roundWithAccuracy_eq_settle sign shifted low roundedFits,
    unpack_pack (isCanonical_settle sign low high roundedFull), ← value]
  exact ⟨_, hasValue_settle sign roundedFits,
    isNearest_grid low roundedFits full represents.nearest⟩

end Columnar
