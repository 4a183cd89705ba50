import Columnar.Json.Token

/-!
# Skipping JSON values

A value that nobody reads still has to be well formed. `skipValue` passes over one value, however
deep it nests: the open arrays and objects stand on a stack, and each token moves the walk by one
step. What is left over is never longer than what was given (`skip_length`).
-/

namespace Columnar

/-- An array or an object that is still open. -/
inductive Frame where
  | array
  | object
deriving DecidableEq, Repr

/-- What may come next in the innermost open frame. -/
inductive Expected where
  | value
  /-- A value, or the end of an array that is empty so far. -/
  | firstItem
  | key
  /-- A key, or the end of an object that is empty so far. -/
  | firstKey
  /-- The colon after a key. -/
  | colon
  /-- A comma or the end of the frame; with no frame open, the value is complete. -/
  | after
deriving DecidableEq, Repr

namespace Token

/-- Where the walk stands once a token has been taken, and which frames are open. -/
def step (expected : Expected) (open_ : List Frame) (token : Token) :
    Option (Expected × List Frame) :=
  let value : Option (Expected × List Frame) :=
    match token with
    | .null | .bool _ | .number _ | .text _ => some (.after, open_)
    | .openBracket => some (.firstItem, .array :: open_)
    | .openBrace => some (.firstKey, .object :: open_)
    | _ => none
  match expected, open_, token with
  | .firstItem, _ :: outer, .closeBracket => some (.after, outer)
  | .firstItem, _, _ => value
  | .value, _, _ => value
  | .firstKey, _ :: outer, .closeBrace => some (.after, outer)
  | .firstKey, _, .text _ => some (.colon, open_)
  | .key, _, .text _ => some (.colon, open_)
  | .colon, _, .colon => some (.value, open_)
  | .after, .array :: _, .comma => some (.value, open_)
  | .after, .array :: outer, .closeBracket => some (.after, outer)
  | .after, .object :: _, .comma => some (.key, open_)
  | .after, .object :: outer, .closeBrace => some (.after, outer)
  | _, _, _ => none

/-- Walks on until no frame is open after a value, and returns the tokens behind it. -/
def skip (expected : Expected) (open_ : List Frame) : List Token → Option (List Token)
  | [] => if expected = .after ∧ open_ = [] then some [] else none
  | token :: rest =>
    if expected = .after ∧ open_ = [] then some (token :: rest)
    else
      match step expected open_ token with
      | none => none
      | some (next, frames) => skip next frames rest

/-- Passes over one value. -/
def skipValue (tokens : List Token) : Option (List Token) := skip .value [] tokens

theorem skip_length {tokens rest : List Token} :
    ∀ {expected open_}, skip expected open_ tokens = some rest →
      rest.length ≤ tokens.length := by
  induction tokens with
  | nil =>
    intro expected open_ h
    unfold skip at h
    split at h
    · simp only [Option.some.injEq] at h
      simp [← h]
    · simp at h
  | cons token tokens ih =>
    intro expected open_ h
    unfold skip at h
    split at h
    · simp only [Option.some.injEq] at h
      simp [← h]
    · split at h
      · simp at h
      · have := ih h
        simp only [List.length_cons]
        omega

end Token

end Columnar
