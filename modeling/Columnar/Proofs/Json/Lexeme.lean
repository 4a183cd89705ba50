import Columnar.Proofs.Json.Numeral

/-!
# Lexemes and the blanks between them

A text is read token by token, past the blanks in front of each (`readAll_eq_cons_iff`). What a
token is read from is its lexeme. Marks and counts have one lexeme each (`readToken_mark_iff`,
`eq_of_readToken_count`), and a plain name is read between its quotes (`readToken_name`).

`Spaced` says which texts are the same up to blanks: those that consist of the same lexemes.
`Reads` says that they are read as certain tokens, and `Spells` that no other texts are. Both are
built up from the last lexeme to the first, because the end of a number depends on what follows.
-/

namespace Columnar.Token

variable {s rest more : List Char} {token : Token} {tokens : List Token} {n : JsonNumber} {k : ℕ}
  {c : Char}

/-! ### Numbers -/

/-- What is read as a number without its sign begins with a digit. -/
theorem exists_of_readUnsigned {negative : Bool}
    (read : readUnsigned negative s = some (token, rest)) :
    (∃ c l, s = c :: l ∧ isDigit c = true) ∧ ∃ n, token = .number n ∧ n.negative = negative := by
  simp only [readUnsigned, Option.bind_eq_bind, Option.bind_eq_some_iff, Option.pure_def,
    Prod.exists] at read
  obtain ⟨_, after, whole, _, _, -, _, _, -, same⟩ := read
  cases same
  obtain ⟨k, rfl, -⟩ := readWhole_eq_some_iff.mp whole
  obtain ⟨c, l, spelled, digit⟩ := exists_numeral_eq_cons k
  exact ⟨⟨c, l ++ after, by rw [spelled, List.cons_append], digit⟩, _, rfl, rfl⟩

/-- Numbers are read with a sign or without one. -/
theorem readToken_number_iff : readToken s = some (.number n, rest) ↔
    (∃ digits, s = '-' :: digits ∧ readUnsigned true digits = some (.number n, rest)) ∨
      readUnsigned false s = some (.number n, rest) := by
  constructor
  · intro read
    unfold readToken at read
    split at read
    case h_10 =>
      obtain ⟨_, -, same⟩ := Option.map_eq_some_iff.mp read
      cases same
    case h_11 digits => exact .inl ⟨digits, rfl, read⟩
    case h_12 => exact .inr read
    all_goals cases read
  · rintro (⟨digits, rfl, read⟩ | read)
    · exact read
    · obtain ⟨⟨c, l, rfl, digit⟩, -⟩ := exists_of_readUnsigned read
      unfold readToken
      split
      case h_12 => exact read
      -- the other tokens do not begin with a digit
      all_goals
        rename_i same
        cases same
        cases digit

/-- A number is read the same in front of what it cannot go on with. -/
theorem readToken_append (read : readToken s = some (.number n, rest)) (ends : EndsNumber more) :
    readToken (s ++ more) = some (.number n, rest ++ more) := by
  rw [readToken_number_iff] at read ⊢
  rcases read with ⟨digits, rfl, read⟩ | read
  · exact .inl ⟨_, rfl, readsOn_readUnsigned true more read fun _ => ends⟩
  · exact .inr (readsOn_readUnsigned false more read fun _ => ends)

/-- The numeral of a count is read where the number does not go on behind it. -/
theorem readToken_numeral (ends : EndsNumber rest) (k : ℕ) :
    readToken (numeral k ++ rest) = some (.number (.ofNat k), rest) :=
  readToken_number_iff.mpr (.inr (readUnsigned_numeral ends k))

/-- **A count has one spelling.** Where a number with its value is read, its numeral stands. -/
theorem eq_of_readToken_count (read : readToken s = some (.number n, rest))
    (value : n.toNat? = some k) : s = numeral k ++ rest ∧ n = .ofNat k := by
  rcases readToken_number_iff.mp read with ⟨digits, rfl, read⟩ | read
  · obtain ⟨-, n, same, negative⟩ := exists_of_readUnsigned read
    cases same
    unfold JsonNumber.toNat? at value
    split at value
    · cases negative
    · cases value
  · exact eq_of_readUnsigned_count read value

/-! ### Marks -/

/-- The character of a mark, a token that consists of one character. -/
def mark? : Token → Option Char
  | .openBrace => some '\x7b'
  | .closeBrace => some '\x7d'
  | .openBracket => some '['
  | .closeBracket => some ']'
  | .colon => some ':'
  | .comma => some ','
  | _ => none

/-- A mark is read where its character stands. -/
theorem readToken_mark_iff (mark : token.mark? = some c) :
    readToken s = some (token, rest) ↔ s = c :: rest := by
  constructor
  · intro read
    unfold readToken at read
    split at read
    case h_7 | h_8 | h_9 =>
      cases read
      cases mark
    case h_10 =>
      obtain ⟨_, -, same⟩ := Option.map_eq_some_iff.mp read
      cases same
      cases mark
    case h_11 | h_12 =>
      obtain ⟨-, n, rfl, -⟩ := exists_of_readUnsigned read
      cases mark
    all_goals
      cases read
      cases mark
      rfl
  · rintro rfl
    unfold mark? at mark
    split at mark
    case h_7 => cases mark
    all_goals
      cases mark
      rfl

/-! ### Names -/

/-- A character that stands for itself between quotes. -/
def isPlain (c : Char) : Bool := !(c < ' ') && c != '"' && c != '\\'

theorem readPieces_plain {name : List Char} (plain : ∀ c ∈ name, isPlain c = true) :
    readPieces (name ++ '"' :: rest) = some (name.map .char, rest) := by
  induction name with
  | nil => rfl
  | cons c name ih =>
    have first := plain c (by simp)
    simp only [isPlain, Bool.and_eq_true, Bool.not_eq_true', bne_iff_ne, ne_eq] at first
    obtain ⟨⟨visible, notQuote⟩, notEscape⟩ := first
    rw [List.cons_append, readPieces]
    · simp [visible, notEscape, ih fun d mem => plain d (by simp [mem])]
    all_goals simp [notQuote, notEscape]

theorem decode_map_char (name : List Char) : Piece.decode (name.map .char) = some name := by
  induction name with
  | nil => rfl
  | cons c name ih => rw [List.map_cons, Piece.decode, ih, Option.map_some]

/-- A name of plain characters is read between quotes. -/
theorem readToken_name {name : String} (plain : ∀ c ∈ name.toList, isPlain c = true) :
    readToken ('"' :: (name.toList ++ '"' :: rest)) = some (.text (some name), rest) := by
  simp only [readToken, readPieces_plain plain, Option.map_some, decode_map_char,
    String.ofList_toList]

/-! ### Blanks -/

theorem eq_of_isBlank (blank : isBlank c = true) : c = ' ' ∨ c = '\n' ∨ c = '\t' ∨ c = '\r' := by
  simpa [isBlank, or_assoc] using blank

theorem not_isBlank_of_isDigit (digit : isDigit c = true) : isBlank c = false := by
  by_contra blank
  rw [Bool.not_eq_false] at blank
  rcases eq_of_isBlank blank with rfl | rfl | rfl | rfl
  all_goals cases digit

/-- Nothing is read where a blank stands. -/
theorem not_isBlank_of_readToken (read : readToken (c :: s) = some (token, rest)) :
    isBlank c = false := by
  by_contra blank
  rw [Bool.not_eq_false] at blank
  rcases eq_of_isBlank blank with rfl | rfl | rfl | rfl
  all_goals
    have unsigned : readUnsigned false _ = some (token, rest) := read
    obtain ⟨⟨d, l, same, digit⟩, -⟩ := exists_of_readUnsigned unsigned
    cases same
    cases digit

theorem readAll_blanks {blanks : List Char} (blank : ∀ c ∈ blanks, isBlank c = true) :
    readAll (blanks ++ s) = readAll s := by
  induction blanks with
  | nil => rfl
  | cons c blanks ih =>
    rw [List.cons_append, readAll, if_pos (blank c (by simp)),
      ih fun d mem => blank d (by simp [mem])]

theorem readAll_of_readToken (read : readToken s = some (token, rest)) :
    readAll s = (readAll rest).map (token :: ·) := by
  cases s with
  | nil => cases read
  | cons c s =>
    rw [readAll, not_isBlank_of_readToken read, if_neg Bool.false_ne_true]
    split
    · rename_i none
      cases none.symm.trans read
    · rename_i other
      cases other.symm.trans read
      rfl

/-- A text has no tokens if it is blank. -/
theorem readAll_eq_nil_iff : readAll s = some [] ↔ ∀ c ∈ s, isBlank c = true := by
  constructor
  · intro read
    fun_induction readAll s with
    | case1 => simp
    | case2 c s blank ih =>
      rw [List.forall_mem_cons]
      exact ⟨blank, ih read⟩
    | case3 => cases read
    | case4 c s visible token rest _ _ ih =>
      obtain ⟨_, -, same⟩ := Option.map_eq_some_iff.mp read
      cases same
  · intro blank
    have read := readAll_blanks (s := []) blank
    rwa [List.append_nil, readAll] at read

/-- The first token of a text is read behind blanks. -/
theorem readAll_eq_cons_iff : readAll s = some (token :: tokens) ↔
    ∃ blanks front rest, s = blanks ++ front ∧ (∀ c ∈ blanks, isBlank c = true) ∧
      readToken front = some (token, rest) ∧ readAll rest = some tokens := by
  constructor
  · intro read
    fun_induction readAll s with
    | case1 => cases read
    | case2 c s blank ih =>
      obtain ⟨blanks, front, rest, rfl, blank', step⟩ := ih read
      refine ⟨c :: blanks, front, rest, rfl, ?_, step⟩
      rw [List.forall_mem_cons]
      exact ⟨blank, blank'⟩
    | case3 => cases read
    | case4 c s visible token' rest step _ ih =>
      obtain ⟨_, read, same⟩ := Option.map_eq_some_iff.mp read
      cases same
      exact ⟨[], c :: s, rest, rfl, by simp, step, read⟩
  · rintro ⟨blanks, front, rest, rfl, blank, step, read⟩
    rw [readAll_blanks blank, readAll_of_readToken step, read, Option.map_some]

/-! ### Texts up to blanks -/

/-- A text that consists of the given lexemes in order, with blanks around them. -/
inductive Spaced : List (List Char) → List Char → Prop
  | nil {blanks : List Char} (blank : ∀ c ∈ blanks, isBlank c = true) : Spaced [] blanks
  | cons {blanks lexeme rest : List Char} {lexemes : List (List Char)}
    (blank : ∀ c ∈ blanks, isBlank c = true) (spaced : Spaced lexemes rest) :
    Spaced (lexeme :: lexemes) (blanks ++ (lexeme ++ rest))

namespace Spaced

variable {lexeme : List Char} {lexemes : List (List Char)}

/-- Lexemes stand without blanks as well. -/
theorem flatten (lexemes : List (List Char)) : Spaced lexemes lexemes.flatten := by
  induction lexemes with
  | nil => exact .nil (by simp)
  | cons lexeme lexemes ih => exact .cons (List.forall_mem_nil _) ih

/-- Without its blanks a text is its lexemes. -/
theorem filter_eq (spaced : Spaced lexemes s)
    (visible : ∀ lexeme ∈ lexemes, ∀ c ∈ lexeme, isBlank c = false) :
    s.filter (!isBlank ·) = lexemes.flatten := by
  induction spaced with
  | nil blank => simpa using blank
  | @cons blanks lexeme rest lexemes blank spaced ih =>
    rw [List.forall_mem_cons] at visible
    have none : blanks.filter (!isBlank ·) = [] := by simpa using blank
    have whole : lexeme.filter (!isBlank ·) = lexeme := by simpa using visible.1
    rw [List.filter_append, List.filter_append, none, whole, ih visible.2, List.nil_append,
      List.flatten_cons]

/-- A number ends in front of blanks and in front of what it cannot go on with. -/
theorem endsNumber (spaced : Spaced ((c :: lexeme) :: lexemes) s)
    (ends : continuesNumber c = false) : EndsNumber s := by
  cases spaced with
  | @cons blanks _ rest _ blank spaced =>
    cases blanks with
    | nil =>
      rintro d ⟨⟩
      exact ends
    | cons b blanks =>
      rintro d ⟨⟩
      rcases eq_of_isBlank (blank b (by simp)) with rfl | rfl | rfl | rfl
      all_goals rfl

end Spaced

/-! ### Tokens of lexemes -/

section Tokens

variable {lexeme : List Char} {lexemes : List (List Char)}

/-- The texts of certain lexemes have certain tokens. -/
def Reads (lexemes : List (List Char)) (tokens : List Token) : Prop :=
  ∀ s, Spaced lexemes s → readAll s = some tokens

theorem Reads.nil : Reads [] [] := by
  rintro s ⟨blank⟩
  exact readAll_eq_nil_iff.mpr blank

theorem Reads.cons (reads : Reads lexemes tokens)
    (step : ∀ rest, Spaced lexemes rest → readToken (lexeme ++ rest) = some (token, rest)) :
    Reads (lexeme :: lexemes) (token :: tokens) := by
  rintro s (_ | ⟨blank, spaced⟩)
  exact readAll_eq_cons_iff.mpr ⟨_, _, _, rfl, blank, step _ spaced, reads _ spaced⟩

theorem Reads.mark (reads : Reads lexemes tokens) (mark : token.mark? = some c) :
    Reads ([c] :: lexemes) (token :: tokens) :=
  reads.cons fun _ _ => (readToken_mark_iff mark).mpr rfl

/-- Behind the numeral of a count, something that ends a number has to follow. -/
theorem Reads.count (reads : Reads ((c :: lexeme) :: lexemes) tokens)
    (ends : continuesNumber c = false) (k : ℕ) :
    Reads (numeral k :: (c :: lexeme) :: lexemes) (.number (.ofNat k) :: tokens) :=
  reads.cons fun _ spaced => readToken_numeral (spaced.endsNumber ends) k

/-- The texts of certain lexemes, and no others, have certain tokens. -/
structure Spells (lexemes : List (List Char)) (tokens : List Token) : Prop where
  reads : Reads lexemes tokens
  only : ∀ s, readAll s = some tokens → Spaced lexemes s

theorem Spells.nil : Spells [] [] where
  reads := .nil
  only _ read := .nil (readAll_eq_nil_iff.mp read)

theorem Spells.cons (spells : Spells lexemes tokens)
    (reads : Reads (lexeme :: lexemes) (token :: tokens))
    (exact : ∀ {front rest}, readToken front = some (token, rest) → front = lexeme ++ rest) :
    Spells (lexeme :: lexemes) (token :: tokens) where
  reads := reads
  only s read := by
    obtain ⟨blanks, front, rest, rfl, blank, step, others⟩ := readAll_eq_cons_iff.mp read
    rw [exact step]
    exact .cons blank (spells.only rest others)

theorem Spells.mark (spells : Spells lexemes tokens) (mark : token.mark? = some c) :
    Spells ([c] :: lexemes) (token :: tokens) :=
  spells.cons (spells.reads.mark mark) (readToken_mark_iff mark).mp

theorem Spells.count (spells : Spells ((c :: lexeme) :: lexemes) tokens)
    (ends : continuesNumber c = false) (k : ℕ) :
    Spells (numeral k :: (c :: lexeme) :: lexemes) (.number (.ofNat k) :: tokens) :=
  spells.cons (spells.reads.count ends k) fun step =>
    (eq_of_readToken_count step (toNat?_ofNat k)).1

/-- What is read as a number by itself is read so in front of something that ends it. -/
theorem Reads.number (reads : Reads ((c :: lexeme) :: lexemes) tokens)
    (ends : continuesNumber c = false) (read : readAll s = some [.number n]) :
    Reads (s :: (c :: lexeme) :: lexemes) (.number n :: tokens) := by
  obtain ⟨blanks', front, after, rfl, blank', step, none⟩ := readAll_eq_cons_iff.mp read
  rintro text (_ | @⟨blanks, _, rest, _, blank, spaced⟩)
  have step' := readToken_append step (spaced.endsNumber ends)
  rw [readAll_blanks blank, List.append_assoc, readAll_blanks blank', readAll_of_readToken step',
    readAll_blanks (readAll_eq_nil_iff.mp none), reads rest spaced, Option.map_some]

/-- A number of a text that has the value of a count is written as that count. -/
theorem eq_ofNat_of_mem_readAll (read : readAll s = some tokens) (mem : .number n ∈ tokens)
    (value : n.toNat? = some k) : n = .ofNat k := by
  induction tokens generalizing s with
  | nil => cases mem
  | cons token tokens ih =>
    obtain ⟨_, _, _, -, -, step, others⟩ := readAll_eq_cons_iff.mp read
    rcases List.mem_cons.mp mem with rfl | mem
    · exact (eq_of_readToken_count step value).2
    · exact ih others mem

end Tokens

/-! ### Elements between marks -/

section Delimited

variable {α : Type}

/-- Elements with a separator between them and an end behind them. -/
def delimited (separator close : α) (elements : List (List α)) : List α :=
  [separator].intercalate elements ++ [close]

/-- What stands behind an element: the end, or a separator and further elements. -/
def behind (separator close : α) : List (List α) → List α
  | [] => [close]
  | element :: elements => separator :: delimited separator close (element :: elements)

theorem delimited_cons (separator close : α) (element : List α) (elements : List (List α)) :
    delimited separator close (element :: elements) =
      element ++ behind separator close elements := by
  cases elements with
  | nil => simp [delimited, behind]
  | cons next elements => simp [delimited, behind]

/-- Elements that are texts are put together with the separator between them. -/
theorem flatten_delimited (separator close : List α) (elements : List (List (List α))) :
    (delimited separator close elements).flatten =
      separator.intercalate (elements.map List.flatten) ++ close := by
  induction elements with
  | nil => simp [delimited]
  | cons element elements ih =>
    cases elements with
    | nil => simp [delimited]
    | cons next elements =>
      rw [delimited_cons, behind, List.flatten_append, List.flatten_cons, ih]
      simp

end Delimited

end Columnar.Token
