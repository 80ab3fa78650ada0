/-
JsonLines.Json.Fault — why a JSON text is refused, and where.

A reader stops at its first fault: a cause and a position in bytes. `Fault.locate` turns the
position into the line and the column that an error message names: the line is one more than the
line feeds among the bytes before the position, the column counts the bytes since the last of them.
-/
namespace JsonLines.Json

/-- What a reader that wants a certain shape found instead. -/
inductive Found where
  | null
  | boolean (value : Bool)
  | integer (literal : String)
  | floating (literal : String)
  | string (text : String)
  | sequence
  | map
deriving DecidableEq, Repr

/-- Why a text is no JSON value, or not one of the shape that was asked for. -/
inductive Cause where
  | eofValue
  | eofString
  | eofList
  | eofObject
  | expectedValue
  | expectedIdent
  | expectedColon
  | expectedListCommaOrEnd
  | expectedObjectCommaOrEnd
  | keyMustBeString
  | trailingCharacters
  | trailingComma
  | invalidNumber
  | invalidEscape
  | controlCharacter
  | loneSurrogate
  | endOfHexEscape
  | numberOutOfRange
  | recursionLimit
  | invalidType (found : Found) (expected : String)
  | invalidValue (found : Found) (expected : String)
  | duplicateField (name : String)
  | unknownVariant (name : String) (expected : List String)
deriving DecidableEq, Repr

/-- A cause, and the number of bytes read when it was found. -/
structure Fault where
  cause : Cause
  position : Nat
deriving DecidableEq, Repr

/-- A fault with the line and the column of its position. -/
structure LocatedFault where
  cause : Cause
  line : Nat
  column : Nat
deriving DecidableEq, Repr

/-- The line and the column of a fault in the text `bytes`, whose first byte is at position
`start`. -/
def Fault.locate (fault : Fault) (bytes : List UInt8) (start : Nat) : LocatedFault :=
  let before := bytes.take (fault.position - start)
  { cause := fault.cause
    line := 1 + before.count 10
    column := (before.reverse.takeWhile (· != 10)).length }

/-- A word of the message between grave accents. -/
private def marked (word : String) : String := "\x60" ++ word ++ "\x60"

/-- A found value, as a message names it. -/
def Found.describe : Found → String
  | .null => "null"
  | .boolean b => "boolean " ++ marked (if b then "true" else "false")
  | .integer literal => "integer " ++ marked literal
  | .floating literal => "floating point " ++ marked literal
  | .string text => "string " ++ text
  | .sequence => "sequence"
  | .map => "map"

/-- The text of a cause. -/
def Cause.message : Cause → String
  | .eofValue => "EOF while parsing a value"
  | .eofString => "EOF while parsing a string"
  | .eofList => "EOF while parsing a list"
  | .eofObject => "EOF while parsing an object"
  | .expectedValue => "expected value"
  | .expectedIdent => "expected ident"
  | .expectedColon => "expected " ++ marked ":"
  | .expectedListCommaOrEnd => "expected " ++ marked "," ++ " or " ++ marked "]"
  | .expectedObjectCommaOrEnd => "expected " ++ marked "," ++ " or " ++ marked "\x7d"
  | .keyMustBeString => "key must be a string"
  | .trailingCharacters => "trailing characters"
  | .trailingComma => "trailing comma"
  | .invalidNumber => "invalid number"
  | .invalidEscape => "invalid escape"
  | .controlCharacter => "control character (\\u0000-\\u001F) found while parsing a string"
  | .loneSurrogate => "lone leading surrogate in hex escape"
  | .endOfHexEscape => "unexpected end of hex escape"
  | .numberOutOfRange => "number out of range"
  | .recursionLimit => "recursion limit exceeded"
  | .invalidType found expected => "invalid type: " ++ found.describe ++ ", expected " ++ expected
  | .invalidValue found expected =>
    "invalid value: " ++ found.describe ++ ", expected " ++ expected
  | .duplicateField name => "duplicate field " ++ marked name
  | .unknownVariant name expected =>
    "unknown variant " ++ marked name ++ ", expected one of "
      ++ String.intercalate ", " (expected.map marked)

/-- The text of a fault with its place. -/
def LocatedFault.message (fault : LocatedFault) : String :=
  fault.cause.message ++ " at line " ++ toString fault.line ++ " column " ++ toString fault.column

end JsonLines.Json
