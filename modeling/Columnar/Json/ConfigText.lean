import Columnar.Config
import Columnar.Json.Skip

/-!
# Configurations as JSON

A configuration is written as an object with a member for each field, in the order of
`Field.all`. It is read from an object with any of the members in any order, or from an array of
the leading fields in order; a field that is not given keeps its default. Members of other names
are skipped. A field given twice is refused, and so is a value of the wrong kind.

Reading a text gives `Overrides`, the fields that the text gives; `Overrides.apply` puts them over
a default configuration.
-/

namespace Columnar

/-- A float in a JSON text: the fewest digits that read back, the even one of two equally near
texts. From `0.00001` up to below `10 ^ 16` the notation is positional with at least one place;
beyond, it has an exponent. What JSON has no number for is written as null. -/
def jsonText (x : Float) : String :=
  match FloatValue.ofFloat x with
  | .nan => "null"
  | .infinity _ => "null"
  | .finite negative size =>
    let d := size.shortest .toEven
    let lead := d.leading
    let body :=
      if d.digits = 0 then "0.0"
      else if lead < -5 || 16 ≤ lead then d.scientific
      else if 0 ≤ d.exponent then d.positional ++ ".0"
      else d.positional
    signText negative ++ body

def boolText (b : Bool) : String := if b then "true" else "false"

/-- A member of a configuration text. -/
inductive Field where
  | samplingRatio
  | seed
  | threads
  | blockSize
  | transposeInput
  | sampleOnce
deriving DecidableEq, Repr

namespace Field

/-- All fields, in the order in which they are written. -/
def all : List Field := [.samplingRatio, .seed, .threads, .blockSize, .transposeInput, .sampleOnce]

def key : Field → String
  | .samplingRatio => "sampling_ratio"
  | .seed => "seed"
  | .threads => "threads"
  | .blockSize => "block_size"
  | .transposeInput => "transpose_input"
  | .sampleOnce => "sample_once"

def ofKey? (name : String) : Option Field := all.find? (·.key == name)

/-- The value of a field of a configuration, as text. -/
def valueText (c : Config) : Field → String
  | .samplingRatio => jsonText c.samplingRatio
  | .seed =>
    match c.seed with
    | none => "null"
    | some word => toString word.toNat
  | .threads => toString c.threads
  | .blockSize => toString c.blockSize
  | .transposeInput => boolText c.transposeInput
  | .sampleOnce => boolText c.sampleOnce

/-- A member of a configuration text. -/
def memberText (c : Config) (f : Field) : String := s!"\"{f.key}\":{f.valueText c}"

end Field

/-- The fields that a text gives. -/
structure Overrides where
  samplingRatio : Option Float := none
  seed : Option (Option UInt64) := none
  threads : Option Nat := none
  blockSize : Option Nat := none
  transposeInput : Option Bool := none
  sampleOnce : Option Bool := none
deriving DecidableEq, Repr

namespace Overrides

def has (o : Overrides) : Field → Bool
  | .samplingRatio => o.samplingRatio.isSome
  | .seed => o.seed.isSome
  | .threads => o.threads.isSome
  | .blockSize => o.blockSize.isSome
  | .transposeInput => o.transposeInput.isSome
  | .sampleOnce => o.sampleOnce.isSome

/-- A count that is not above a bound. -/
def count? (bound : Nat) (n : JsonNumber) : Option Nat := n.toNat?.filter (· ≤ bound)

/-- Gives a field the value of a token, if the token is of the field's kind. -/
def set? (o : Overrides) : Field → Token → Option Overrides
  | .samplingRatio, .number n => n.toFloat?.map fun ratio => { o with samplingRatio := some ratio }
  | .seed, .null => some { o with seed := some none }
  | .seed, .number n =>
    (count? maxSize n).map fun seed => { o with seed := some (some (UInt64.ofNat seed)) }
  | .threads, .number n => (count? maxSize n).map fun threads => { o with threads := some threads }
  | .blockSize, .number n =>
    (count? maxCount n).map fun blockSize => { o with blockSize := some blockSize }
  | .transposeInput, .bool b => some { o with transposeInput := some b }
  | .sampleOnce, .bool b => some { o with sampleOnce := some b }
  | _, _ => none

/-- Puts the given fields over a configuration. -/
def apply (o : Overrides) (c : Config) : Config :=
  { samplingRatio := o.samplingRatio.getD c.samplingRatio
    seed := o.seed.getD c.seed
    threads := o.threads.getD c.threads
    blockSize := o.blockSize.getD c.blockSize
    transposeInput := o.transposeInput.getD c.transposeInput
    sampleOnce := o.sampleOnce.getD c.sampleOnce }

/-- Reads what follows the name of a member: its colon and its value. -/
def readMember (o : Overrides) (name : String) : List Token → Option (Overrides × List Token)
  | .colon :: tokens =>
    match Field.ofKey? name with
    | none => (Token.skipValue tokens).map (o, ·)
    | some field =>
      match tokens with
      | [] => none
      | token :: rest => if o.has field then none else (o.set? field token).map (·, rest)
  | _ => none

theorem readMember_length {o : Overrides} {name : String} {tokens rest : List Token}
    {o' : Overrides} (h : o.readMember name tokens = some (o', rest)) :
    rest.length < tokens.length := by
  unfold readMember at h
  split at h
  · split at h
    · obtain ⟨r, hr, he⟩ := Option.map_eq_some_iff.mp h
      have := Token.skip_length hr
      simp only [Prod.mk.injEq] at he
      simp only [List.length_cons, ← he.2]
      omega
    · split at h
      · simp at h
      · split at h
        · simp at h
        · obtain ⟨r, hr, he⟩ := Option.map_eq_some_iff.mp h
          simp only [Prod.mk.injEq] at he
          simp only [List.length_cons, ← he.2]
          omega
  · simp at h

/-- Reads members up to the brace that closes the object. -/
def readMembers (o : Overrides) (tokens : List Token) : Option (Overrides × List Token) :=
  match tokens with
  | .text (some name) :: rest =>
    match h : o.readMember name rest with
    | some (o', .comma :: rest') =>
      have := readMember_length h
      readMembers o' rest'
    | some (o', .closeBrace :: rest') => some (o', rest')
    | _ => none
  | _ => none
termination_by tokens.length
decreasing_by
  simp only [List.length_cons] at *
  omega

/-- Reads the values of the given fields in order, up to the bracket that closes the array. -/
def readItems (o : Overrides) : List Field → List Token → Option (Overrides × List Token)
  | field :: fields, token :: rest =>
    match o.set? field token, rest with
    | some o', .comma :: rest' => readItems o' fields rest'
    | some o', .closeBracket :: rest' => some (o', rest')
    | _, _ => none
  | _, _ => none

/-- Reads the fields that the tokens of a text give, with nothing behind them. -/
def ofTokens? (tokens : List Token) : Option Overrides :=
  let read :=
    match tokens with
    | .openBrace :: .closeBrace :: rest => some (({} : Overrides), rest)
    | .openBrace :: rest => readMembers {} rest
    | .openBracket :: .closeBracket :: rest => some (({} : Overrides), rest)
    | .openBracket :: rest => readItems {} Field.all rest
    | _ => none
  match read with
  | some (o, []) => some o
  | _ => none

/-- Reads the fields that a text gives. -/
def ofJson (text : String) : Except PlanError Overrides :=
  match (tokensOf text).bind ofTokens? with
  | some o => .ok o
  | none => .error .unreadable

end Overrides

namespace Config

/-- The text of a configuration that gives some of its fields. -/
def textOf (c : Config) (fields : List Field) : String :=
  "\x7b" ++ ",".intercalate (fields.map (Field.memberText c)) ++ "\x7d"

def toJson (c : Config) : String := c.textOf Field.all

/-- Reads a configuration, with defaults for the fields that the text does not give, and checks
it. -/
def ofJson (hostThreads : Nat) (text : String) : Except PlanError Config := do
  let overrides ← Overrides.ofJson text
  let config := overrides.apply (default hostThreads)
  config.validate
  return config

end Config

end Columnar
