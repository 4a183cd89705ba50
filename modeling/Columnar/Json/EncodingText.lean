import Columnar.Encoding
import Columnar.Error
import Columnar.Json.Token

/-!
# Encodings and sizes as JSON

An encoding is written as the string of its variant name, and may also be read from an object
whose only member has that name and the value null. Sizes are written as an array of five
integers, and read from such an array with blanks between the tokens.
-/

namespace Columnar

namespace Encoding

/-- The name of an encoding in a JSON text. -/
def variant : Encoding → String
  | .dict1 => "Dict1"
  | .dict2 => "Dict2"
  | .runLength => "RunLength"
  | .offsetList => "OffsetList"
  | .uncompressed => "Uncompressed"

def ofVariant? (name : String) : Option Encoding := all.find? (·.variant == name)

def toJson (e : Encoding) : String := s!"\"{e.variant}\""

def ofTokens? : List Token → Option Encoding
  | [.text (some name)] => ofVariant? name
  | [.openBrace, .text (some name), .colon, .null, .closeBrace] => ofVariant? name
  | _ => none

def ofJson (text : String) : Except PlanError Encoding :=
  match (tokensOf text).bind ofTokens? with
  | some e => .ok e
  | none => .error .unreadable

end Encoding

namespace EncodingSizes

def toJson (s : EncodingSizes) : String := "[" ++ ",".intercalate (s.toList.map toString) ++ "]"

/-- Reads numbers with commas between them, up to a closing bracket that ends the text. -/
def readSizes : List Token → Option (List Nat)
  | [.number n, .closeBracket] => do
    let size ← n.toNat?.filter (· ≤ maxSize)
    return [size]
  | .number n :: .comma :: rest => do
    let size ← n.toNat?.filter (· ≤ maxSize)
    let sizes ← readSizes rest
    return size :: sizes
  | _ => none

def ofTokens? : List Token → Option EncodingSizes
  | .openBracket :: rest => (readSizes rest).bind PerEncoding.ofList?
  | _ => none

def ofJson (text : String) : Except PlanError EncodingSizes :=
  match (tokensOf text).bind ofTokens? with
  | some s => .ok s
  | none => .error .unreadable

end EncodingSizes

end Columnar
