import Columnar.Json.Number

/-!
# JSON tokens

The lexer turns a text into its tokens and leaves out the blanks between them. Strings are read
in two steps. `readPieces` finds the end of the string and the value of each escape, and fails on
control characters and unknown escapes. `Piece.decode` then joins the escapes that name the two
halves of a surrogate pair; a string with a lone half has no text, which is a fault only where the
text is looked at.
-/

namespace Columnar

/-- A token of a JSON text. -/
inductive Token where
  | openBrace
  | closeBrace
  | openBracket
  | closeBracket
  | colon
  | comma
  | null
  | bool (value : Bool)
  | number (value : JsonNumber)
  | text (content : Option String)
deriving DecidableEq, Repr

/-- A character of a string, or an escaped 16-bit unit. -/
inductive Piece where
  | char (c : Char)
  | unit (value : Nat)
deriving DecidableEq, Repr

namespace Piece

/-- Whether a unit is the first half of a surrogate pair. -/
def isHigh (unit : Nat) : Bool := 0xD800 ≤ unit && unit < 0xDC00

/-- Whether a unit is the second half of a surrogate pair. -/
def isLow (unit : Nat) : Bool := 0xDC00 ≤ unit && unit < 0xE000

/-- The character that a surrogate pair stands for. -/
def joinPair (high low : Nat) : Char :=
  Char.ofNat (0x10000 + (high - 0xD800) * 0x400 + (low - 0xDC00))

/-- The characters of a string, if no half of a surrogate pair stands alone. -/
def decode : List Piece → Option (List Char)
  | [] => some []
  | .char c :: rest => (decode rest).map (c :: ·)
  | .unit high :: .unit low :: rest =>
    if isHigh high then
      if isLow low then (decode rest).map (joinPair high low :: ·) else none
    else if isLow high then none
    else (decode (.unit low :: rest)).map (Char.ofNat high :: ·)
  | .unit u :: rest =>
    if isHigh u || isLow u then none else (decode rest).map (Char.ofNat u :: ·)

end Piece

namespace Token

/-- The characters that may stand between tokens. -/
def isBlank (c : Char) : Bool := c == ' ' || c == '\n' || c == '\t' || c == '\r'

def digitValue (c : Char) : Nat := c.toNat - '0'.toNat

/-- Whether a character is one of the ten decimal digits. -/
def isDigit (c : Char) : Bool := '0' ≤ c && c ≤ '9'

def hexValue? (c : Char) : Option Nat :=
  if isDigit c then some (digitValue c)
  else if 'a' ≤ c && c ≤ 'f' then some (c.toNat - 'a'.toNat + 10)
  else if 'A' ≤ c && c ≤ 'F' then some (c.toNat - 'A'.toNat + 10)
  else none

/-- The character that a one-letter escape stands for. -/
def unescape? : Char → Option Char
  | '"' => some '"'
  | '\\' => some '\\'
  | '/' => some '/'
  | 'b' => some '\x08'
  | 'f' => some '\x0c'
  | 'n' => some '\n'
  | 'r' => some '\r'
  | 't' => some '\t'
  | _ => none

/-- The unit that four hexadecimal digits name. -/
def hexUnit? (a b c d : Char) : Option Nat := do
  let a ← hexValue? a
  let b ← hexValue? b
  let c ← hexValue? c
  let d ← hexValue? d
  return ((a * 16 + b) * 16 + c) * 16 + d

/-- The pieces of a string up to its closing quote, and what follows the quote. -/
def readPieces : List Char → Option (List Piece × List Char)
  | [] => none
  | '"' :: rest => some ([], rest)
  | '\\' :: 'u' :: a :: b :: c :: d :: rest => do
    let unit ← hexUnit? a b c d
    let (pieces, rest) ← readPieces rest
    return (.unit unit :: pieces, rest)
  | '\\' :: letter :: rest => do
    let c ← unescape? letter
    let (pieces, rest) ← readPieces rest
    return (.char c :: pieces, rest)
  | c :: rest =>
    if c < ' ' || c == '\\' then none
    else do
      let (pieces, rest) ← readPieces rest
      return (.char c :: pieces, rest)

/-- The longest prefix of digits, as values, and the rest. -/
def spanDigits (s : List Char) : List Nat × List Char :=
  ((s.takeWhile isDigit).map digitValue, s.dropWhile isDigit)

/-- At least one digit. -/
def readDigits (s : List Char) : Option (List Nat × List Char) :=
  match spanDigits s with
  | ([], _) => none
  | (digits, rest) => some (digits, rest)

/-- The whole part of a number: a lone zero, or digits that do not begin with zero. -/
def readWhole : List Char → Option (List Nat × List Char)
  | '0' :: rest => some ([0], rest)
  | s => readDigits s

/-- The digits behind a point, if a point follows. -/
def readFraction : List Char → Option (Option (List Nat) × List Char)
  | '.' :: rest => (readDigits rest).map fun (digits, rest) => (some digits, rest)
  | s => some (none, s)

/-- The digits of an exponent behind its optional sign. -/
def readSigned : List Char → Option (Int × List Char)
  | '+' :: rest => (readDigits rest).map fun (digits, rest) => (JsonNumber.ofDigits digits, rest)
  | '-' :: rest => (readDigits rest).map fun (digits, rest) => (-JsonNumber.ofDigits digits, rest)
  | s => (readDigits s).map fun (digits, rest) => (JsonNumber.ofDigits digits, rest)

/-- The exponent of a number, if one follows. -/
def readExponent : List Char → Option (Option Int × List Char)
  | 'e' :: rest => (readSigned rest).map fun (value, rest) => (some value, rest)
  | 'E' :: rest => (readSigned rest).map fun (value, rest) => (some value, rest)
  | s => some (none, s)

/-- A number without its sign. -/
def readUnsigned (negative : Bool) (s : List Char) : Option (Token × List Char) := do
  let (whole, s) ← readWhole s
  let (fraction, s) ← readFraction s
  let (exponent, s) ← readExponent s
  return (.number ⟨negative, whole, fraction, exponent⟩, s)

/-- The token at the head of a text, and what follows it. -/
def readToken : List Char → Option (Token × List Char)
  | '\x7b' :: rest => some (.openBrace, rest)
  | '\x7d' :: rest => some (.closeBrace, rest)
  | '[' :: rest => some (.openBracket, rest)
  | ']' :: rest => some (.closeBracket, rest)
  | ':' :: rest => some (.colon, rest)
  | ',' :: rest => some (.comma, rest)
  | 'n' :: 'u' :: 'l' :: 'l' :: rest => some (.null, rest)
  | 't' :: 'r' :: 'u' :: 'e' :: rest => some (.bool true, rest)
  | 'f' :: 'a' :: 'l' :: 's' :: 'e' :: rest => some (.bool false, rest)
  | '"' :: rest =>
    (readPieces rest).map fun (pieces, rest) =>
      (.text ((Piece.decode pieces).map String.ofList), rest)
  | '-' :: rest => readUnsigned true rest
  | s => readUnsigned false s

/-! ### Reading goes forward -/

theorem readPieces_length (s : List Char) :
    ∀ {pieces rest}, readPieces s = some (pieces, rest) → rest.length < s.length := by
  fun_induction readPieces s with
  | case1 => simp
  | case2 rest => intro pieces r h; simp at h; simp [h.2]
  | case3 a b c d rest ih =>
    intro pieces r h
    simp only [Option.bind_eq_bind, Option.bind_eq_some_iff, Option.pure_def] at h
    obtain ⟨u, -, ⟨ps, rs⟩, hr, he⟩ := h
    have := ih hr
    simp only [Option.some.injEq, Prod.mk.injEq] at he
    simp only [List.length_cons, ← he.2]
    omega
  | case4 letter rest _ ih =>
    intro pieces r h
    simp only [Option.bind_eq_bind, Option.bind_eq_some_iff, Option.pure_def] at h
    obtain ⟨u, -, ⟨ps, rs⟩, hr, he⟩ := h
    have := ih hr
    simp only [Option.some.injEq, Prod.mk.injEq] at he
    simp only [List.length_cons, ← he.2]
    omega
  | case5 => simp
  | case6 c rest _ _ _ _ ih =>
    intro pieces r h
    simp only [Option.bind_eq_bind, Option.bind_eq_some_iff, Option.pure_def] at h
    obtain ⟨⟨ps, rs⟩, hr, he⟩ := h
    have := ih hr
    simp only [Option.some.injEq, Prod.mk.injEq] at he
    simp only [List.length_cons, ← he.2]
    omega

theorem length_spanDigits (s : List Char) :
    (spanDigits s).1.length + (spanDigits s).2.length = s.length := by
  simp only [spanDigits, List.length_map]
  rw [← List.length_append, List.takeWhile_append_dropWhile]

theorem readDigits_length {s : List Char} {digits rest}
    (h : readDigits s = some (digits, rest)) : rest.length < s.length := by
  have hl := length_spanDigits s
  unfold readDigits at h
  split at h
  · simp at h
  · next ds r hne hs =>
    simp only [Option.some.injEq, Prod.mk.injEq] at h
    rw [hs] at hl
    have : 0 < ds.length := by
      cases ds with
      | nil => exact absurd rfl hne
      | cons _ _ => simp
    simp only at hl
    rw [← h.2]
    omega

theorem readWhole_length {s : List Char} {digits rest}
    (h : readWhole s = some (digits, rest)) : rest.length < s.length := by
  unfold readWhole at h
  split at h
  · simp only [Option.some.injEq, Prod.mk.injEq] at h
    simp [h.2]
  · exact readDigits_length h

theorem readFraction_length {s : List Char} {digits rest}
    (h : readFraction s = some (digits, rest)) : rest.length ≤ s.length := by
  unfold readFraction at h
  split at h
  · obtain ⟨⟨ds, r⟩, hr, he⟩ := Option.map_eq_some_iff.mp h
    have := readDigits_length hr
    simp only [Prod.mk.injEq] at he
    simp only [List.length_cons, ← he.2]
    omega
  · simp only [Option.some.injEq, Prod.mk.injEq] at h
    simp [h.2]

theorem readSigned_length {s : List Char} {value rest}
    (h : readSigned s = some (value, rest)) : rest.length < s.length := by
  unfold readSigned at h
  split at h <;>
  · obtain ⟨⟨ds, r⟩, hr, he⟩ := Option.map_eq_some_iff.mp h
    have := readDigits_length hr
    simp only [Prod.mk.injEq] at he
    simp only [List.length_cons, ← he.2]
    omega

theorem readExponent_length {s : List Char} {value rest}
    (h : readExponent s = some (value, rest)) : rest.length ≤ s.length := by
  unfold readExponent at h
  split at h
  case h_3 =>
    simp only [Option.some.injEq, Prod.mk.injEq] at h
    simp [h.2]
  all_goals
    obtain ⟨⟨v, r⟩, hr, he⟩ := Option.map_eq_some_iff.mp h
    have := readSigned_length hr
    simp only [Prod.mk.injEq] at he
    simp only [List.length_cons, ← he.2]
    omega

theorem readUnsigned_length {negative : Bool} {s : List Char} {token rest}
    (h : readUnsigned negative s = some (token, rest)) : rest.length < s.length := by
  simp only [readUnsigned, Option.bind_eq_bind, Option.bind_eq_some_iff, Option.pure_def,
    Prod.exists] at h
  obtain ⟨whole, s₁, h₁, fraction, s₂, h₂, exponent, s₃, h₃, he⟩ := h
  have := readWhole_length h₁
  have := readFraction_length h₂
  have := readExponent_length h₃
  simp only [Option.some.injEq, Prod.mk.injEq] at he
  rw [← he.2]
  omega

/-- A token takes at least one character. -/
theorem readToken_length {s : List Char} {token rest}
    (h : readToken s = some (token, rest)) : rest.length < s.length := by
  unfold readToken at h
  split at h
  case h_10 =>
    obtain ⟨⟨pieces, r⟩, hr, he⟩ := Option.map_eq_some_iff.mp h
    have := readPieces_length _ hr
    simp only [Prod.mk.injEq] at he
    simp only [List.length_cons, ← he.2]
    omega
  case h_11 =>
    have := readUnsigned_length h
    simp only [List.length_cons]
    omega
  case h_12 => exact readUnsigned_length h
  all_goals
    simp only [Option.some.injEq, Prod.mk.injEq] at h
    simp only [List.length_cons, ← h.2]
    omega

def readAll (s : List Char) : Option (List Token) :=
  match s with
  | [] => some []
  | c :: rest =>
    if isBlank c then readAll rest
    else
      match h : readToken (c :: rest) with
      | none => none
      | some (token, rest') =>
        have := readToken_length h
        (readAll rest').map (token :: ·)
termination_by s.length
decreasing_by
  · simp only [List.length_cons]
    omega
  · exact this

end Token

/-- The tokens of a text, without the blanks between them. -/
def tokensOf (text : String) : Option (List Token) := Token.readAll text.toList

end Columnar
