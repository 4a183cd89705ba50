import Columnar.Json.Token
import Mathlib.Data.List.Basic
import Mathlib.Data.List.Induction

/-!
# Numerals of counts

A count has one numeral, its decimal digits: a lone zero, or digits that do not begin with zero
(`numeral_ofDigits`). The whole part of a number is read from such a numeral and from nothing else,
up to where the digits end (`readWhole_eq_some_iff`). So a number has the value of a count only
where the numeral of that count stands, and where that stands and the number does not go on, the
count is read (`eq_of_readUnsigned_count`, `readUnsigned_numeral`).

A number goes on as long as it can. What stands behind it does not change what is read, unless the
number reaches up to there and could go on (`readsOn_readUnsigned`).
-/

namespace Columnar

/-- The decimal digits of a count. -/
def numeral (k : ℕ) : List Char := Nat.toDigits 10 k

theorem toList_toString (k : ℕ) : (toString k).toList = numeral k := by
  rw [Nat.toString_eq_ofList_toDigits, String.toList_ofList, numeral]

/-- The number with the digits of a count. -/
def JsonNumber.ofNat (k : ℕ) : JsonNumber := ⟨false, (numeral k).map Token.digitValue, none, none⟩

variable {k : ℕ} {l : List Char}

/-! ### Digits -/

theorem isDigit_of_mem_numeral {c : Char} (mem : c ∈ numeral k) : Token.isDigit c = true :=
  Nat.isDigit_of_mem_toDigits (by decide) (by decide) mem

/-- A numeral begins with a digit. -/
theorem exists_numeral_eq_cons (k : ℕ) : ∃ c l, numeral k = c :: l ∧ Token.isDigit c = true := by
  obtain ⟨c, l, spelled⟩ := List.exists_cons_of_ne_nil (Nat.toDigits_ne_nil (n := k) (b := 10))
  have first : c ∈ numeral k := by simp [numeral, spelled]
  exact ⟨c, l, spelled, isDigit_of_mem_numeral first⟩

theorem ofDigits_map_digitValue (l : List Char) :
    JsonNumber.ofDigits (l.map Token.digitValue) = Nat.ofDigitChars 10 l 0 := by
  rw [JsonNumber.ofDigits, List.foldl_map, Nat.ofDigitChars_eq_foldl]
  rfl

theorem ofDigits_numeral (k : ℕ) :
    JsonNumber.ofDigits ((numeral k).map Token.digitValue) = k := by
  rw [ofDigits_map_digitValue, numeral, Nat.ofDigitChars_ten_toDigits]

theorem toNat?_ofNat (k : ℕ) : (JsonNumber.ofNat k).toNat? = some k :=
  congrArg some (ofDigits_numeral k)

/-- A count that is not above a bound passes it. -/
theorem filter_toNat?_ofNat {bound : ℕ} (fits : k ≤ bound) :
    (JsonNumber.ofNat k).toNat?.filter (· ≤ bound) = some k := by
  rw [toNat?_ofNat, Option.filter_some, if_pos (decide_eq_true fits)]

theorem numeral_zero : numeral 0 = ['0'] := Nat.toDigits_zero 10

/-- The numeral of a count that is not zero does not begin with a zero. -/
theorem head?_numeral (positive : 0 < k) : (numeral k).head? ≠ some '0' := by
  induction k using Nat.strongRecOn with
  | ind k ih =>
    rw [numeral, Nat.toDigits_eq_if (by decide)]
    split
    · rename_i small
      rw [List.head?_cons, Ne, Option.some_inj, Nat.digitChar_eq_zero]
      exact Nat.ne_of_gt positive
    · have shorter : 0 < k / 10 := by omega
      have first := ih (k / 10) (by omega) shorter
      rw [List.head?_append_of_ne_nil _ Nat.toDigits_ne_nil]
      exact first

theorem digitChar_digitValue {c : Char} (digit : Token.isDigit c = true) :
    Token.digitValue c < 10 ∧ (Token.digitValue c).digitChar = c := by
  have bounds : 48 ≤ c.toNat ∧ c.toNat ≤ 57 := by
    simpa [Token.isDigit, Char.le_def, UInt32.le_iff_toNat_le] using digit
  have small : Token.digitValue c < 10 := by
    show c.toNat - 48 < 10
    omega
  refine ⟨small, Char.toNat_inj.mp ?_⟩
  rw [Nat.toNat_digitChar_of_lt_ten small]
  show 48 + (c.toNat - 48) = c.toNat
  omega

/-- **Digits that do not begin with a zero are the numeral of what they stand for.** -/
theorem numeral_ofDigits (nonempty : l ≠ []) (digits : ∀ c ∈ l, Token.isDigit c = true)
    (first : l.head? ≠ some '0') :
    numeral (JsonNumber.ofDigits (l.map Token.digitValue)) = l := by
  rw [ofDigits_map_digitValue, numeral]
  induction l using List.reverseRecOn with
  | nil => exact absurd rfl nonempty
  | append_singleton l c ih =>
    obtain ⟨small, same⟩ := digitChar_digitValue (digits c (by simp))
    have value : Nat.ofDigitChars 10 (l ++ [c]) 0 =
        10 * Nat.ofDigitChars 10 l 0 + Token.digitValue c := by
      rw [Nat.ofDigitChars_append, Nat.ofDigitChars_cons, Nat.ofDigitChars_nil]
      rfl
    rw [value]
    by_cases single : l = []
    · rw [single, Nat.ofDigitChars_nil, Nat.mul_zero, Nat.zero_add, Nat.toDigits_of_lt_base small,
        same, List.nil_append]
    · rw [List.head?_append_of_ne_nil _ single] at first
      have front := ih single (fun d mem => digits d (by simp [mem])) first
      -- the digits in front do not stand for zero, whose numeral begins with one
      have positive : 0 < Nat.ofDigitChars 10 l 0 := by
        rw [Nat.pos_iff_ne_zero]
        intro zero
        rw [zero, Nat.toDigits_zero] at front
        exact first (front ▸ rfl)
      rw [← Nat.toDigits_append_toDigits (by decide) positive small, front,
        Nat.toDigits_of_lt_base small, same]

/-! ### Readers of digits -/

namespace Token

variable {s rest : List Char} {ds : List ℕ}

/-- A stretch of digits ends where it is cut off. -/
theorem spanDigits_append (digits : ∀ c ∈ l, isDigit c = true)
    (ends : ∀ c ∈ rest.head?, isDigit c = false) :
    spanDigits (l ++ rest) = (l.map digitValue, rest) := by
  have none : rest.takeWhile isDigit = [] ∧ rest.dropWhile isDigit = rest := by
    cases rest with
    | nil => exact ⟨rfl, rfl⟩
    | cons c rest => simp [ends c rfl]
  rw [spanDigits, List.takeWhile_append_of_pos digits, List.dropWhile_append_of_pos digits, none.1,
    none.2, List.append_nil]

/-- Digits are read from a stretch of digits up to its end. -/
theorem readDigits_eq_some_iff : readDigits s = some (ds, rest) ↔
    ∃ l, s = l ++ rest ∧ l ≠ [] ∧ (∀ c ∈ l, isDigit c = true) ∧
      (∀ c ∈ rest.head?, isDigit c = false) ∧ ds = l.map digitValue := by
  constructor
  · intro read
    unfold readDigits at read
    split at read
    · cases read
    · rename_i digits after nonempty span
      cases read
      cases span
      refine ⟨s.takeWhile isDigit, List.takeWhile_append_dropWhile.symm, fun none => ?_,
        List.all_eq_true.mp List.all_takeWhile, fun c first => ?_, rfl⟩
      · exact nonempty (congrArg (List.map digitValue) none)
      · have ends := List.head?_dropWhile_not isDigit s
        rwa [Option.mem_def.mp first] at ends
  · rintro ⟨l, rfl, nonempty, digits, ends, rfl⟩
    unfold readDigits
    rw [spanDigits_append digits ends]
    obtain ⟨c, l, rfl⟩ := List.exists_cons_of_ne_nil nonempty
    rfl

/-- The whole part of a number is the numeral of a count. After a lone zero digits may follow, as
they do not belong to the number. -/
theorem readWhole_eq_some_iff : readWhole s = some (ds, rest) ↔
    ∃ k, s = numeral k ++ rest ∧ ds = (numeral k).map digitValue ∧
      (0 < k → ∀ c ∈ rest.head?, isDigit c = false) := by
  constructor
  · intro read
    unfold readWhole at read
    split at read
    · cases read
      exact ⟨0, by rw [numeral_zero]; rfl, by rw [numeral_zero]; rfl, fun positive => absurd rfl
        (Nat.ne_of_gt positive)⟩
    · rename_i other
      obtain ⟨l, rfl, nonempty, digits, ends, rfl⟩ := readDigits_eq_some_iff.mp read
      have first : l.head? ≠ some '0' := by
        intro zero
        obtain ⟨c, l, rfl⟩ := List.exists_cons_of_ne_nil nonempty
        cases zero
        exact other _ rfl
      have spelled := numeral_ofDigits nonempty digits first
      exact ⟨_, by rw [spelled], by rw [spelled], fun _ => ends⟩
  · rintro ⟨k, rfl, rfl, ends⟩
    rcases k.eq_zero_or_pos with rfl | positive
    · rw [numeral_zero]
      rfl
    · obtain ⟨c, l, spelled, -⟩ := exists_numeral_eq_cons k
      have first : c ≠ '0' := by
        rintro rfl
        exact head?_numeral positive (congrArg List.head? spelled)
      have read := readDigits_eq_some_iff.mpr ⟨numeral k, rfl, Nat.toDigits_ne_nil,
        fun _ => isDigit_of_mem_numeral, ends positive, rfl⟩
      rw [spelled] at read ⊢
      unfold readWhole
      split
      · rename_i same
        cases same
        exact absurd rfl first
      · exact read

/-! ### Numbers and what follows them -/

/-- Whether a number can go on with a character. -/
def continuesNumber (c : Char) : Bool := isDigit c || c == '.' || c == 'e' || c == 'E'

/-- A number does not go on here. -/
def EndsNumber (rest : List Char) : Prop := ∀ c ∈ rest.head?, continuesNumber c = false

section Ends

variable (ends : EndsNumber rest)
include ends

theorem EndsNumber.no_digit : ∀ c ∈ rest.head?, isDigit c = false := by
  intro c first
  have stops := ends c first
  simp only [continuesNumber, Bool.or_eq_false_iff] at stops
  exact stops.1.1.1

theorem readFraction_of_ends : readFraction rest = some (none, rest) := by
  unfold readFraction
  split
  · exact absurd (ends '.' rfl) (by decide)
  · rfl

theorem readExponent_of_ends : readExponent rest = some (none, rest) := by
  unfold readExponent
  split
  · exact absurd (ends 'e' rfl) (by decide)
  · exact absurd (ends 'E' rfl) (by decide)
  · rfl

/-- The numeral of a count is read as the number with its digits. -/
theorem readUnsigned_numeral (k : ℕ) :
    readUnsigned false (numeral k ++ rest) = some (.number (.ofNat k), rest) := by
  have whole := readWhole_eq_some_iff.mpr ⟨k, rfl, rfl, fun _ => ends.no_digit⟩
  simp only [readUnsigned, whole, Option.bind_eq_bind, Option.bind_some, readFraction_of_ends ends,
    readExponent_of_ends ends]
  rfl

end Ends

theorem eq_of_readFraction_none (read : readFraction s = some (none, rest)) : s = rest := by
  unfold readFraction at read
  split at read
  · obtain ⟨_, -, same⟩ := Option.map_eq_some_iff.mp read
    cases same
  · cases read
    rfl

theorem eq_of_readExponent_none (read : readExponent s = some (none, rest)) : s = rest := by
  unfold readExponent at read
  split at read
  case h_3 =>
    cases read
    rfl
  all_goals
    obtain ⟨_, -, same⟩ := Option.map_eq_some_iff.mp read
    cases same

/-- A number has the value of a count only if it is read from the numeral of that count. -/
theorem eq_of_readUnsigned_count {negative : Bool} {n : JsonNumber}
    (read : readUnsigned negative s = some (.number n, rest)) (value : n.toNat? = some k) :
    s = numeral k ++ rest ∧ n = .ofNat k := by
  simp only [readUnsigned, Option.bind_eq_bind, Option.bind_eq_some_iff, Option.pure_def,
    Prod.exists] at read
  obtain ⟨whole, s₁, readWhole, fraction, s₂, readFraction, exponent, s₃, readExponent, same⟩ :=
    read
  cases same
  unfold JsonNumber.toNat? at value
  split at value
  · rename_i plain
    cases plain
    obtain rfl := eq_of_readFraction_none readFraction
    obtain rfl := eq_of_readExponent_none readExponent
    obtain ⟨k', rfl, rfl, -⟩ := readWhole_eq_some_iff.mp readWhole
    obtain rfl : k' = k := (ofDigits_numeral k').symm.trans (Option.some.inj value)
    exact ⟨rfl, rfl⟩
  · cases value

/-! ### Readers of parts of a number -/

/-- A reader reads the same in front of a longer rest, if a number does not go on with that. -/
def ReadsOn {α : Type} (reader : List Char → Option (α × List Char)) : Prop :=
  ∀ {s a rest} more, reader s = some (a, rest) → (rest = [] → EndsNumber more) →
    reader (s ++ more) = some (a, rest ++ more)

theorem ReadsOn.map {α β : Type} {reader : List Char → Option (α × List Char)}
    (readsOn : ReadsOn reader) (f : α → β) :
    ReadsOn fun s => (reader s).map fun (a, rest) => (f a, rest) := by
  intro s b rest more read ends
  obtain ⟨⟨a, rest⟩, read, same⟩ := Option.map_eq_some_iff.mp read
  cases same
  exact Option.map_eq_some_iff.mpr ⟨_, readsOn more read ends, rfl⟩

/-- What ends a number also ends its digits. -/
theorem no_digit_append {more : List Char} (first : ∀ c ∈ rest.head?, isDigit c = false)
    (ends : rest = [] → EndsNumber more) : ∀ c ∈ (rest ++ more).head?, isDigit c = false := by
  cases rest with
  | nil => exact (ends rfl).no_digit
  | cons c rest => exact first

theorem readsOn_readDigits : ReadsOn readDigits := by
  intro s ds rest more read ends
  obtain ⟨l, rfl, nonempty, digits, first, rfl⟩ := readDigits_eq_some_iff.mp read
  exact readDigits_eq_some_iff.mpr ⟨l, List.append_assoc .., nonempty, digits,
    no_digit_append first ends, rfl⟩

theorem readsOn_readWhole : ReadsOn readWhole := by
  intro s ds rest more read ends
  obtain ⟨k, rfl, rfl, first⟩ := readWhole_eq_some_iff.mp read
  exact readWhole_eq_some_iff.mpr ⟨k, List.append_assoc .., rfl,
    fun positive => no_digit_append (first positive) ends⟩

theorem readsOn_readFraction : ReadsOn readFraction := by
  intro s fraction rest more read ends
  unfold readFraction at read
  split at read
  · exact readsOn_readDigits.map some more read ends
  · rename_i other
    cases read
    cases s with
    | nil => exact readFraction_of_ends (ends rfl)
    | cons c s =>
      unfold readFraction
      split
      · rename_i same
        cases same
        exact absurd rfl (other s)
      · rfl

theorem readsOn_readSigned : ReadsOn readSigned := by
  intro s value rest more read ends
  unfold readSigned at read
  split at read
  · exact readsOn_readDigits.map (fun digits => (JsonNumber.ofDigits digits : Int)) more read ends
  · exact readsOn_readDigits.map (fun digits => (-JsonNumber.ofDigits digits : Int)) more read ends
  · rename_i other other'
    have unsigned := readsOn_readDigits.map (fun digits => (JsonNumber.ofDigits digits : Int)) more
      read ends
    cases s with
    | nil => cases read
    | cons c s =>
      unfold readSigned
      split
      · rename_i same
        cases same
        exact absurd rfl (other s)
      · rename_i same
        cases same
        exact absurd rfl (other' s)
      · exact unsigned

theorem readsOn_readExponent : ReadsOn readExponent := by
  intro s exponent rest more read ends
  unfold readExponent at read
  split at read
  · exact readsOn_readSigned.map some more read ends
  · exact readsOn_readSigned.map some more read ends
  · rename_i other other'
    cases read
    cases s with
    | nil => exact readExponent_of_ends (ends rfl)
    | cons c s =>
      unfold readExponent
      split
      · rename_i same
        cases same
        exact absurd rfl (other s)
      · rename_i same
        cases same
        exact absurd rfl (other' s)
      · rfl

theorem readsOn_readUnsigned (negative : Bool) : ReadsOn (readUnsigned negative) := by
  intro s token rest more read ends
  simp only [readUnsigned, Option.bind_eq_bind, Option.bind_eq_some_iff, Option.pure_def,
    Prod.exists] at read ⊢
  obtain ⟨whole, s₁, readWhole, fraction, s₂, readFraction, exponent, s₃, readExponent, same⟩ :=
    read
  cases same
  have shorter := readExponent_length readExponent
  have shorter' := readFraction_length readFraction
  -- where a part has been read up to the end of the text, the parts after it are empty
  have ends₂ : s₂ = [] → EndsNumber more := by
    rintro rfl
    exact ends (List.eq_nil_of_length_eq_zero (Nat.le_zero.mp shorter))
  have ends₁ : s₁ = [] → EndsNumber more := by
    rintro rfl
    exact ends₂ (List.eq_nil_of_length_eq_zero (Nat.le_zero.mp shorter'))
  exact ⟨_, _, readsOn_readWhole more readWhole ends₁, _, _,
    readsOn_readFraction more readFraction ends₂, _, _,
    readsOn_readExponent more readExponent ends, rfl⟩

end Token

end Columnar
