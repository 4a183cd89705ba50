import Columnar.Proofs.Config
import Columnar.Proofs.Json.Lexeme

/-!
# Texts of configurations

What is written of a configuration is read back. Each member of its text has three lexemes, a
quoted name, a colon and a value (`Field.lexemes`), and each value is one token
(`Field.reads_value`). Counts, seeds and flags are read back from any text that `Field.valueText`
writes. For the ratio this depends on the digits that are written, so it is assumed where it is
used: `readFloat?` reads the float that a text consists of.

A text may leave out members, and may have them in any order. `Overrides.of` collects the fields
that it gives, one by one as its members are read (`Overrides.readMembers_tokens`), and
`Config.keeping` is what they make of a default configuration.
-/

namespace Columnar

open Token

/-- The float that a text consists of. -/
def readFloat? (text : String) : Option Float :=
  match tokensOf text with
  | some [.number n] => n.toFloat?
  | _ => none

theorem exists_of_readFloat? {text : String} {x : Float} (read : readFloat? text = some x) :
    ∃ n, tokensOf text = some [.number n] ∧ n.toFloat? = some x := by
  unfold readFloat? at read
  split at read
  · rename_i n lexed
    exact ⟨n, lexed, read⟩
  · cases read

variable {c : Config} {ratio : JsonNumber} {f : Field} {fields : List Field}

/-! ### Lexemes of members -/

namespace Field

/-- The token of a value. The ratio is the number that its text is read as. -/
def token (c : Config) (ratio : JsonNumber) : Field → Token
  | .samplingRatio => .number ratio
  | .seed =>
    match c.seed with
    | none => .null
    | some word => .number (.ofNat word.toNat)
  | .threads => .number (.ofNat c.threads)
  | .blockSize => .number (.ofNat c.blockSize)
  | .transposeInput => .bool c.transposeInput
  | .sampleOnce => .bool c.sampleOnce

/-- The lexemes of a member. -/
def lexemes (c : Config) (f : Field) : List (List Char) :=
  ['"' :: (f.key.toList ++ ['"']), [':'], (f.valueText c).toList]

/-- The tokens of a member. -/
def tokens (c : Config) (ratio : JsonNumber) (f : Field) : List Token :=
  [.text (some f.key), .colon, f.token c ratio]

theorem isPlain_of_mem_key (f : Field) : ∀ d ∈ f.key.toList, isPlain d = true := by
  rw [← List.all_eq_true]
  cases f
  all_goals rfl

theorem ofKey?_key (f : Field) : ofKey? f.key = some f := by
  cases f
  all_goals rfl

theorem flatten_lexemes (c : Config) (f : Field) :
    (f.lexemes c).flatten = (f.memberText c).toList := by
  have text : f.memberText c = "\"" ++ f.key ++ "\":" ++ f.valueText c := rfl
  simp [lexemes, text, String.toList_append]

section Reads

variable {d : Char} {lexeme : List Char} {others : List (List Char)} {behind : List Token}
variable (reads : Reads ((d :: lexeme) :: others) behind) (ends : continuesNumber d = false)
  (lexed : tokensOf (jsonText c.samplingRatio) = some [.number ratio])
include reads ends lexed

/-- The text of a value is read as one token. -/
theorem reads_value (f : Field) :
    Reads ((f.valueText c).toList :: (d :: lexeme) :: others) (f.token c ratio :: behind) := by
  have flag : ∀ b, Reads ((boolText b).toList :: (d :: lexeme) :: others) (.bool b :: behind) := by
    intro b
    cases b
    all_goals exact reads.cons fun _ _ => rfl
  have count : ∀ k : ℕ, Reads ((toString k).toList :: (d :: lexeme) :: others)
      (.number (.ofNat k) :: behind) := by
    intro k
    rw [toList_toString]
    exact reads.count ends k
  cases f with
  | samplingRatio => exact reads.number ends lexed
  | seed =>
    cases given : c.seed with
    | none =>
      simp only [valueText, token, given]
      exact reads.cons fun _ _ => rfl
    | some word =>
      simp only [valueText, token, given]
      exact count word.toNat
  | threads => exact count c.threads
  | blockSize => exact count c.blockSize
  | transposeInput => exact flag c.transposeInput
  | sampleOnce => exact flag c.sampleOnce

theorem reads_member (f : Field) :
    Reads (f.lexemes c ++ (d :: lexeme) :: others) (f.tokens c ratio ++ behind) := by
  refine ((reads_value reads ends lexed f).mark rfl).cons fun rest _ => ?_
  have name : readToken ('"' :: (f.key.toList ++ '"' :: rest)) = some (.text (some f.key), rest) :=
    readToken_name f.isPlain_of_mem_key
  simpa using name

end Reads

end Field

namespace Config

/-- The lexemes of a text that gives some fields. -/
def lexemes (c : Config) (fields : List Field) : List (List Char) :=
  ['\x7b'] :: delimited [','] ['\x7d'] (fields.map (Field.lexemes c))

/-- The tokens of a text that gives some fields. -/
def tokens (c : Config) (ratio : JsonNumber) (fields : List Field) : List Token :=
  .openBrace :: delimited .comma .closeBrace (fields.map (Field.tokens c ratio))

theorem flatten_lexemes (c : Config) (fields : List Field) :
    (c.lexemes fields).flatten = (c.textOf fields).toList := by
  have members : (fields.map (Field.lexemes c)).map List.flatten =
      (fields.map (Field.memberText c)).map String.toList := by
    rw [List.map_map, List.map_map]
    exact List.map_congr_left fun f _ => f.flatten_lexemes c
  rw [lexemes, List.flatten_cons, flatten_delimited, members, textOf, String.toList_append,
    String.toList_append, String.toList_intercalate, List.append_assoc]
  rfl

theorem reads_lexemes (lexed : tokensOf (jsonText c.samplingRatio) = some [.number ratio])
    (fields : List Field) : Reads (c.lexemes fields) (c.tokens ratio fields) := by
  apply Reads.mark _ rfl
  induction fields with
  | nil => exact Reads.nil.mark rfl
  | cons f fields ih =>
    rw [List.map_cons, List.map_cons, delimited_cons, delimited_cons]
    cases fields with
    | nil => exact Field.reads_member (Reads.nil.mark rfl) rfl lexed f
    | cons next fields => exact Field.reads_member (ih.mark rfl) rfl lexed f

theorem tokensOf_textOf (lexed : tokensOf (jsonText c.samplingRatio) = some [.number ratio])
    (fields : List Field) : tokensOf (c.textOf fields) = some (c.tokens ratio fields) := by
  apply reads_lexemes lexed
  rw [← flatten_lexemes]
  exact Spaced.flatten _

end Config

/-! ### Fields that a text gives -/

namespace Overrides

/-- Some fields of a configuration. -/
def of (c : Config) (given : List Field) : Overrides where
  samplingRatio := if .samplingRatio ∈ given then some c.samplingRatio else none
  seed := if .seed ∈ given then some c.seed else none
  threads := if .threads ∈ given then some c.threads else none
  blockSize := if .blockSize ∈ given then some c.blockSize else none
  transposeInput := if .transposeInput ∈ given then some c.transposeInput else none
  sampleOnce := if .sampleOnce ∈ given then some c.sampleOnce else none

theorem has_of (c : Config) (given : List Field) (f : Field) :
    (of c given).has f = decide (f ∈ given) := by
  rw [Bool.eq_iff_iff, decide_eq_true_iff]
  cases f
  all_goals simp [of, has]

section Members

variable {o o' : Overrides} {name : String} {rest rest' : List Token}

theorem readMembers_comma (member : o.readMember name rest = some (o', .comma :: rest')) :
    readMembers o (.text (some name) :: rest) = readMembers o' rest' := by
  rw [readMembers]
  split
  case h_1 same =>
    cases member.symm.trans same
    rfl
  case h_2 same => cases member.symm.trans same
  case h_3 none _ => exact absurd member (none _ _)

theorem readMembers_closeBrace
    (member : o.readMember name rest = some (o', .closeBrace :: rest')) :
    readMembers o (.text (some name) :: rest) = some (o', rest') := by
  rw [readMembers]
  split
  case h_1 same => cases member.symm.trans same
  case h_2 same =>
    cases member.symm.trans same
    rfl
  case h_3 _ none => exact absurd member (none _ _)

/-- Members begin with a name. -/
theorem exists_name_of_readMembers {tokens : List Token} {result : Overrides × List Token}
    (read : readMembers o tokens = some result) :
    ∃ name rest, tokens = .text (some name) :: rest := by
  unfold readMembers at read
  split at read
  · exact ⟨_, _, rfl⟩
  · cases read

theorem ofTokens?_of_readMembers {tokens : List Token}
    (read : readMembers {} tokens = some (o, [])) : ofTokens? (.openBrace :: tokens) = some o := by
  obtain ⟨name, rest, rfl⟩ := exists_name_of_readMembers read
  simp only [ofTokens?, read]

end Members

/-- What a text can hold of a configuration: numbers that fit, and a ratio that is read from the
number that is written for it. -/
structure Holds (c : Config) (ratio : JsonNumber) : Prop where
  threads : c.threads ≤ maxSize
  blockSize : c.blockSize ≤ maxCount
  ratio : ratio.toFloat? = some c.samplingRatio

section Reading

variable (holds : Holds c ratio)
include holds

/-- The token of a value gives the field its value. -/
theorem set?_token (given : List Field) (f : Field) :
    (of c given).set? f (f.token c ratio) = some (of c (given ++ [f])) := by
  cases f with
  | samplingRatio => simp [set?, Field.token, of, holds.ratio]
  | seed =>
    unfold Field.token
    cases seed : c.seed with
    | none => simp [set?, of, seed]
    | some word =>
      have fits : word.toNat ≤ maxSize := Nat.le_of_lt_succ word.toNat_lt
      simp [set?, of, seed, count?, filter_toNat?_ofNat fits]
  | threads => simp [set?, Field.token, of, count?, filter_toNat?_ofNat holds.threads]
  | blockSize => simp [set?, Field.token, of, count?, filter_toNat?_ofNat holds.blockSize]
  | transposeInput => simp [set?, Field.token, of]
  | sampleOnce => simp [set?, Field.token, of]

/-- A member whose field has not been given yet is read. -/
theorem readMember_tokens {given : List Field} (absent : f ∉ given) (rest : List Token) :
    (of c given).readMember f.key (.colon :: f.token c ratio :: rest) =
      some (of c (given ++ [f]), rest) := by
  have new : (of c given).has f = false := by rw [has_of, decide_eq_false absent]
  simp [readMember, Field.ofKey?_key, new, set?_token holds]

/-- Members are read one after the other, on top of the fields that have been given. -/
theorem readMembers_tokens (given : List Field) (some : fields ≠ [])
    (distinct : (given ++ fields).Nodup) :
    readMembers (of c given) (delimited .comma .closeBrace (fields.map (Field.tokens c ratio))) =
      .some (of c (given ++ fields), []) := by
  induction fields generalizing given with
  | nil => exact absurd rfl some
  | cons f fields ih =>
    have absent : f ∉ given := fun mem => List.disjoint_of_nodup_append distinct mem (by simp)
    rw [List.map_cons, delimited_cons]
    cases fields with
    | nil => exact readMembers_closeBrace (readMember_tokens holds absent _)
    | cons next fields =>
      have others := ih (given ++ [f]) (by simp) (by simpa using distinct)
      rw [List.append_assoc] at others
      exact (readMembers_comma (readMember_tokens holds absent _)).trans others

theorem ofTokens?_tokens (distinct : fields.Nodup) :
    ofTokens? (c.tokens ratio fields) = some (of c fields) := by
  cases fields with
  | nil => rfl
  | cons f fields =>
    have read := readMembers_tokens holds [] (List.cons_ne_nil f fields) distinct
    have none : of c [] = {} := by simp [of]
    rw [none] at read
    exact ofTokens?_of_readMembers read

end Reading

end Overrides

namespace Config

/-- The given fields of one configuration, and the other fields of another. -/
def keeping (c d : Config) (given : List Field) : Config where
  samplingRatio := if .samplingRatio ∈ given then c.samplingRatio else d.samplingRatio
  seed := if .seed ∈ given then c.seed else d.seed
  threads := if .threads ∈ given then c.threads else d.threads
  blockSize := if .blockSize ∈ given then c.blockSize else d.blockSize
  transposeInput := if .transposeInput ∈ given then c.transposeInput else d.transposeInput
  sampleOnce := if .sampleOnce ∈ given then c.sampleOnce else d.sampleOnce

theorem keeping_all (c d : Config) : c.keeping d Field.all = c := by simp [keeping, Field.all]

theorem apply_of (c d : Config) (given : List Field) :
    (Overrides.of c given).apply d = c.keeping d given := by
  have pick : ∀ {α : Type} (p : Prop) [Decidable p] (a b : α),
      (if p then some a else none).getD b = if p then a else b := by
    intro α p _ a b
    split
    · rfl
    · rfl
  simp only [Overrides.apply, Overrides.of, pick, keeping]

theorem isValid_keeping {d : Config} (valid : c.IsValid) (valid' : d.IsValid)
    (given : List Field) : (c.keeping d given).IsValid where
  ratio := by
    dsimp only [keeping]
    split
    · exact valid.ratio
    · exact valid'.ratio
  threads := by
    dsimp only [keeping]
    split
    · exact valid.threads
    · exact valid'.threads
  blockSize := by
    dsimp only [keeping]
    split
    · exact valid.blockSize
    · exact valid'.blockSize

theorem isValid_default {hostThreads : ℕ} (host : 0 < hostThreads) :
    (default hostThreads).IsValid where
  ratio := isSamplingRatio_iff.mp (by decide : isSamplingRatio 1 = true)
  threads := host
  blockSize := (by decide : 0 < defaultBlockSize)

/-- A text that gives some fields is read as a configuration with these fields, if that is
valid. -/
theorem ofJson_textOf {hostThreads : ℕ} (holds : Overrides.Holds c ratio)
    (lexed : tokensOf (jsonText c.samplingRatio) = some [.number ratio]) (distinct : fields.Nodup)
    (valid : (c.keeping (default hostThreads) fields).IsValid) :
    ofJson hostThreads (c.textOf fields) = .ok (c.keeping (default hostThreads) fields) := by
  have read : Overrides.ofJson (c.textOf fields) = .ok (Overrides.of c fields) := by
    rw [Overrides.ofJson, tokensOf_textOf lexed, Option.bind_some,
      Overrides.ofTokens?_tokens holds distinct]
  have accepted := validate_of_isValid valid
  rw [← apply_of] at accepted ⊢
  simp only [ofJson, read, bind, Except.bind, accepted, pure, Except.pure]

/-- **What is written of a configuration is read back**, and so is any part of it: fields that are
left out get their defaults. -/
theorem texts_read_back (hostThreads : ℕ) (c : Config) (accepted : c.validate = .ok ())
    (threads : c.threads ≤ maxSize) (blockSize : c.blockSize ≤ maxCount)
    (digits : readFloat? (jsonText c.samplingRatio) = some c.samplingRatio) :
    ofJson hostThreads c.toJson = .ok c ∧
      (0 < hostThreads → ∀ fields : List Field, fields.Nodup →
        ofJson hostThreads (c.textOf fields) = .ok (c.keeping (default hostThreads) fields)) := by
  obtain ⟨ratio, lexed, value⟩ := exists_of_readFloat? digits
  have holds : Overrides.Holds c ratio := ⟨threads, blockSize, value⟩
  have valid := validate_eq_ok_iff.mp accepted
  constructor
  · have whole : ofJson hostThreads c.toJson =
        .ok (c.keeping (default hostThreads) Field.all) := by
      apply ofJson_textOf holds lexed (by decide)
      rwa [keeping_all]
    rwa [keeping_all] at whole
  · intro host fields distinct
    exact ofJson_textOf holds lexed distinct (isValid_keeping valid (isValid_default host) fields)

/-- The largest seed and the largest block size are read back; without its number of workers, the
same configuration gets the workers of the host. -/
theorem texts_read_back_largest :
    let c : Config := { sampled 3 0.25 18446744073709551615 with blockSize := 4294967295 }
    c.validate = .ok () ∧ c.threads ≤ maxSize ∧ c.blockSize ≤ maxCount ∧
      readFloat? (jsonText c.samplingRatio) = some c.samplingRatio ∧
        ofJson 8 c.toJson = .ok c ∧
          ofJson 8 (c.textOf [.blockSize, .seed, .samplingRatio]) =
            .ok { c with threads := 8 } := by
  intro c
  have accepted : c.validate = .ok () := validate_of_isValid
    ⟨isSamplingRatio_iff.mp (by decide : isSamplingRatio 0.25 = true), by decide, by decide⟩
  have threads : c.threads ≤ maxSize := by decide
  have blockSize : c.blockSize ≤ maxCount := by decide
  have digits : readFloat? (jsonText c.samplingRatio) = some c.samplingRatio := by decide +kernel
  obtain ⟨whole, part⟩ := texts_read_back 8 c accepted threads blockSize digits
  exact ⟨accepted, threads, blockSize, digits, whole, part (by decide) _ (by decide)⟩

end Config

end Columnar
