import Columnar.Json.EncodingText
import Columnar.Json.Skip
import Columnar.Proofs.Json.Lexeme

/-!
# Texts of sizes

Sizes that fit 64 bits are read from their own text with blanks around the tokens, and from no other
(`ofJson_eq_ok_iff_spaced`). The proof goes by way of tokens: five counts in an array are the only
tokens that are read as sizes (`ofJson_eq_ok_iff_tokens`), and they stand in these texts alone
(`spells_lexemes`).

An array may hold anything, so what is refused is said of arrays of any values. The values of an
array can be told apart by its tokens if one of two arrays holds only counts
(`elements_eq_of_delimited_eq`).
-/

namespace Columnar

namespace PerEncoding

variable {α : Type} {p : PerEncoding α} {l : List α}

theorem ofList?_eq_some_iff : ofList? l = some p ↔ l = p.toList := by
  constructor
  · intro read
    unfold ofList? at read
    split at read
    · cases read
      rfl
    · cases read
  · rintro rfl
    rfl

theorem mem_toList_iff {a : α} : a ∈ p.toList ↔ ∃ e, p.get e = a := by
  rw [toList, List.mem_map]
  constructor
  · rintro ⟨e, -, same⟩
    exact ⟨e, same⟩
  · rintro ⟨e, same⟩
    exact ⟨e, by cases e <;> decide, same⟩

end PerEncoding

namespace Token

/-! ### Arrays -/

/-- The tokens of an array of elements, each of which may have any number of tokens. -/
def arrayTokens (elements : List (List Token)) : List Token :=
  .openBracket :: delimited .comma .closeBracket elements

/-- The one token of a count. -/
def countTokens (k : ℕ) : List Token := [.number (.ofNat k)]

theorem countTokens_injective : Function.Injective countTokens := by
  intro k k' same
  have same' : JsonNumber.ofNat k = .ofNat k' := by simpa [countTokens] using same
  exact Option.some.inj ((toNat?_ofNat k).symm.trans (same' ▸ toNat?_ofNat k'))

/-- The tokens behind the bracket that opens an array of counts. -/
def countsTokens (counts : List ℕ) : List Token :=
  delimited .comma .closeBracket (counts.map countTokens)

theorem countsTokens_cons_cons (k k' : ℕ) (counts : List ℕ) :
    countsTokens (k :: k' :: counts) =
      .number (.ofNat k) :: .comma :: countsTokens (k' :: counts) := rfl

/-- An element in front that begins with a number is that number. -/
theorem eq_of_number_head {element more rest : List Token} {n : JsonNumber}
    (value : skipValue element = some []) (same : element ++ more = .number n :: rest) :
    element = [.number n] ∧ more = rest := by
  cases element with
  | nil => cases value
  | cons token element =>
    cases same
    cases element with
    | nil => exact ⟨rfl, rfl⟩
    | cons next element => cases value

theorem delimited_eq_of_behind_eq {elements others : List (List Token)}
    (same : behind .comma .closeBracket elements = behind .comma .closeBracket others) :
    delimited .comma .closeBracket elements = delimited .comma .closeBracket others := by
  cases elements with
  | nil =>
    cases others with
    | nil => rfl
    | cons => cases same
  | cons =>
    cases others with
    | nil => cases same
    | cons => exact (List.cons.inj same).2

/-- **The elements of an array are told apart.** No other values have the tokens of counts. -/
theorem elements_eq_of_delimited_eq {elements : List (List Token)} {counts : List ℕ}
    (values : ∀ element ∈ elements, skipValue element = some [])
    (same : delimited .comma .closeBracket elements = countsTokens counts) :
    elements = counts.map countTokens := by
  induction counts generalizing elements with
  | nil =>
    rcases elements with _ | ⟨_ | ⟨token, element⟩, elements⟩
    · rfl
    · cases values [] List.mem_cons_self
    · -- an element would begin with the closing bracket
      rw [delimited_cons] at same
      obtain ⟨rfl, -⟩ := List.cons.inj same
      cases values _ List.mem_cons_self
  | cons k counts ih =>
    rw [countsTokens, List.map_cons, delimited_cons] at same
    cases elements with
    | nil => cases same
    | cons element elements =>
      rw [List.forall_mem_cons] at values
      rw [delimited_cons] at same
      obtain ⟨rfl, others⟩ := eq_of_number_head values.1 same
      rw [ih values.2 (delimited_eq_of_behind_eq others)]
      rfl

end Token

namespace EncodingSizes

open Token

variable {s : EncodingSizes} {text : String} {tokens : List Token} {sizes : List ℕ}

/-- Each size fits 64 bits. -/
def Fits (s : EncodingSizes) : Prop := ∀ e, s.get e ≤ maxSize

/-- The lexemes of sizes: brackets around five numerals with commas between them. -/
def lexemes (s : EncodingSizes) : List (List Char) :=
  ['['] :: delimited [','] [']'] (s.toList.map fun k => [numeral k])

theorem flatten_lexemes (s : EncodingSizes) : s.lexemes.flatten = s.toJson.toList := by
  have numerals : (s.toList.map toString).map String.toList = s.toList.map numeral := by
    rw [List.map_map]
    exact List.map_congr_left fun k _ => toList_toString k
  have single : (s.toList.map fun k => [numeral k]).map List.flatten = s.toList.map numeral := by
    rw [List.map_map]
    exact List.map_congr_left fun k _ => List.flatten_singleton
  rw [lexemes, List.flatten_cons, flatten_delimited, single, toJson, String.toList_append,
    String.toList_append, String.toList_intercalate, numerals, List.append_assoc]
  rfl

theorem fits_iff : s.Fits ↔ ∀ k ∈ s.toList, k ≤ maxSize := by
  constructor
  · intro fits k mem
    obtain ⟨e, rfl⟩ := PerEncoding.mem_toList_iff.mp mem
    exact fits e
  · intro fits e
    exact fits _ (PerEncoding.mem_toList_iff.mpr ⟨e, rfl⟩)

/-! ### Reading tokens -/

/-- Counts that fit are read from their tokens. -/
theorem readSizes_countsTokens (some : sizes ≠ []) (fits : ∀ k ∈ sizes, k ≤ maxSize) :
    readSizes (countsTokens sizes) = .some sizes := by
  induction sizes with
  | nil => exact absurd rfl some
  | cons k sizes ih =>
    rw [List.forall_mem_cons] at fits
    have first := filter_toNat?_ofNat fits.1
    cases sizes with
    | nil => simp [countsTokens, delimited, countTokens, readSizes, first]
    | cons k' sizes =>
      rw [countsTokens_cons_cons, readSizes, first, ih (List.cons_ne_nil _ _) fits.2]
      rfl

/-- Where numbers with the value of a count are written as counts, nothing else is read. -/
theorem eq_countsTokens_of_readSizes
    (written : ∀ n k, .number n ∈ tokens → n.toNat? = some k → n = .ofNat k)
    (read : readSizes tokens = some sizes) :
    sizes ≠ [] ∧ (∀ k ∈ sizes, k ≤ maxSize) ∧ tokens = countsTokens sizes := by
  fun_induction readSizes tokens generalizing sizes with
  | case1 n =>
    simp only [Option.bind_eq_bind, Option.bind_eq_some_iff, Option.pure_def,
      Option.filter_eq_some_iff, decide_eq_true_eq] at read
    obtain ⟨k, ⟨value, fits⟩, same⟩ := read
    cases same
    cases written n k (by simp) value
    exact ⟨by simp, by simpa using fits, rfl⟩
  | case2 n rest ih =>
    simp only [Option.bind_eq_bind, Option.bind_eq_some_iff, Option.pure_def,
      Option.filter_eq_some_iff, decide_eq_true_eq] at read
    obtain ⟨k, ⟨value, fits⟩, sizes, read, same⟩ := read
    cases same
    cases written n k (by simp) value
    obtain ⟨some, fits', rfl⟩ := ih (fun n k mem => written n k (by simp [mem])) read
    obtain ⟨k', sizes, rfl⟩ := List.exists_cons_of_ne_nil some
    exact ⟨by simp, List.forall_mem_cons.mpr ⟨fits, fits'⟩, rfl⟩
  | case3 => cases read

theorem ofJson_eq_ok_iff : ofJson text = .ok s ↔ (tokensOf text).bind ofTokens? = some s := by
  unfold ofJson
  split
  · rename_i read
    simp [read]
  · rename_i none
    simp [none]

/-- Sizes that fit are read from the tokens of their array, and sizes from no other tokens. -/
theorem ofJson_eq_ok_iff_tokens : ofJson text = .ok s ↔
    s.Fits ∧ tokensOf text = some (.openBracket :: countsTokens s.toList) := by
  rw [ofJson_eq_ok_iff, Option.bind_eq_some_iff, fits_iff]
  constructor
  · rintro ⟨tokens, lexed, read⟩
    unfold ofTokens? at read
    split at read
    · rename_i tokens
      obtain ⟨sizes, read, five⟩ := Option.bind_eq_some_iff.mp read
      rw [PerEncoding.ofList?_eq_some_iff] at five
      have written : ∀ n k, .number n ∈ tokens → n.toNat? = some k → n = .ofNat k :=
        fun n k mem => eq_ofNat_of_mem_readAll lexed (List.mem_cons_of_mem _ mem)
      obtain ⟨-, fits, rfl⟩ := eq_countsTokens_of_readSizes written read
      exact ⟨five ▸ fits, five ▸ lexed⟩
    · cases read
  · rintro ⟨fits, lexed⟩
    refine ⟨_, lexed, ?_⟩
    have some : s.toList ≠ [] := List.cons_ne_nil _ _
    rw [ofTokens?, readSizes_countsTokens some fits, Option.bind_some,
      PerEncoding.ofList?_eq_some_iff]

/-- The texts of their lexemes, and no others, have the tokens of sizes. -/
theorem spells_lexemes (s : EncodingSizes) :
    Spells s.lexemes (.openBracket :: countsTokens s.toList) := by
  have numerals : ∀ sizes : List ℕ,
      Spells (delimited [','] [']'] (sizes.map fun k => [numeral k])) (countsTokens sizes) := by
    intro sizes
    induction sizes with
    | nil => exact Spells.nil.mark rfl
    | cons k sizes ih =>
      cases sizes with
      | nil => exact (Spells.nil.mark rfl).count rfl k
      | cons k' sizes => exact (ih.mark rfl).count rfl k
  exact (numerals s.toList).mark rfl

/-- **Sizes are read from their own text with blanks around the tokens**, and from no other. -/
theorem ofJson_eq_ok_iff_spaced :
    ofJson text = .ok s ↔ s.Fits ∧ Spaced s.lexemes text.toList := by
  rw [ofJson_eq_ok_iff_tokens]
  exact and_congr_right fun _ => ⟨s.spells_lexemes.only _, s.spells_lexemes.reads _⟩

/-- No lexeme has a blank. -/
theorem not_isBlank_of_mem_lexemes (s : EncodingSizes) :
    ∀ lexeme ∈ s.lexemes, ∀ c ∈ lexeme, isBlank c = false := by
  have mark : ∀ d, isBlank d = false → ∀ c ∈ [d], isBlank c = false :=
    fun _ visible => List.forall_mem_singleton.mpr visible
  have numerals : ∀ sizes : List ℕ,
      ∀ lexeme ∈ delimited [','] [']'] (sizes.map fun k => [numeral k]),
        ∀ c ∈ lexeme, isBlank c = false := by
    intro sizes
    induction sizes with
    | nil => exact List.forall_mem_singleton.mpr (mark ']' rfl)
    | cons k sizes ih =>
      rw [List.map_cons, delimited_cons, List.singleton_append, List.forall_mem_cons]
      refine ⟨fun c mem => not_isBlank_of_isDigit (isDigit_of_mem_numeral mem), ?_⟩
      cases sizes with
      | nil => exact List.forall_mem_singleton.mpr (mark ']' rfl)
      | cons k' sizes => exact List.forall_mem_cons.mpr ⟨mark ',' rfl, ih⟩
  exact List.forall_mem_cons.mpr ⟨mark '[' rfl, numerals s.toList⟩

/-- What holds of sizes and a text. -/
structure TextLaws (s : EncodingSizes) (text : String) : Prop where
  /-- The sizes are read from the text if it is their own text with blanks around the tokens, and
  only then. -/
  read_iff : ofJson text = .ok s ↔ s.Fits ∧ Spaced s.lexemes text.toList
  /-- Without blanks the lexemes are the text that is written. -/
  written : s.lexemes.flatten = s.toJson.toList
  /-- What is written is read back. -/
  read_back : s.Fits → ofJson s.toJson = .ok s
  /-- What is read is written as the same text without blanks. -/
  written_back : ofJson text = .ok s → s.toJson.toList = text.toList.filter (!isBlank ·)
  /-- An array is refused if it does not have five elements, or if one of them is not a count that
  fits. -/
  refused : ∀ elements, tokensOf text = some (arrayTokens elements) →
    (∀ element ∈ elements, skipValue element = some []) →
    elements.length ≠ 5 ∨ (∃ element ∈ elements, ∀ k ≤ maxSize, element ≠ countTokens k) →
    ofJson text = .error .unreadable

/-- **Texts of sizes are read exactly**, whatever blanks they have. -/
theorem texts_read_exactly (s : EncodingSizes) (text : String) : s.TextLaws text where
  read_iff := ofJson_eq_ok_iff_spaced
  written := s.flatten_lexemes
  read_back fits := by
    rw [ofJson_eq_ok_iff_spaced, ← flatten_lexemes]
    exact ⟨fits, Spaced.flatten _⟩
  written_back read := by
    obtain ⟨-, spaced⟩ := ofJson_eq_ok_iff_spaced.mp read
    rw [spaced.filter_eq s.not_isBlank_of_mem_lexemes, flatten_lexemes]
  refused elements lexed values wrong := by
    cases outcome : ofJson text with
    | error failure =>
      unfold ofJson at outcome
      split at outcome
      · cases outcome
      · cases outcome
        rfl
    | ok s =>
      obtain ⟨fits, lexed'⟩ := ofJson_eq_ok_iff_tokens.mp outcome
      have same := (List.cons.inj (Option.some.inj (lexed.symm.trans lexed'))).2
      obtain rfl := elements_eq_of_delimited_eq values same
      rcases wrong with length | ⟨element, mem, other⟩
      · exact absurd rfl length
      · obtain ⟨k, given, rfl⟩ := List.mem_map.mp mem
        exact absurd rfl (other k (fits_iff.mp fits k given))

/-- The largest size is read, with blanks around the tokens; a larger one is refused, and so are
four sizes. -/
theorem texts_read_exactly_largest :
    let s : EncodingSizes := ⟨0, 1, 65536, maxSize, 10⟩
    let text := " [0,1 , 65536,\t18446744073709551615\r\n,10]\n"
    ofJson text = .ok s ∧ Spaced s.lexemes text.toList ∧
      ofJson "[0,1,65536,18446744073709551616,10]" = .error .unreadable ∧
      ofJson "[0,1,65536,10]" = .error .unreadable := by
  intro s text
  have read : ofJson text = .ok s := ofJson_eq_ok_iff.mpr (by decide +kernel)
  refine ⟨read, ((texts_read_exactly s text).read_iff.mp read).2, ?_, ?_⟩
  · apply (texts_read_exactly s _).refused ([0, 1, 65536, maxSize + 1, 10].map countTokens)
    · decide +kernel
    · decide
    · refine .inr ⟨countTokens (maxSize + 1), by simp, fun k fits same => ?_⟩
      obtain rfl := countTokens_injective same
      exact absurd fits (by decide)
  · apply (texts_read_exactly s _).refused ([0, 1, 65536, 10].map countTokens)
    · decide +kernel
    · decide
    · exact .inl (by decide)

end EncodingSizes

end Columnar
