/-
JsonLines.Coercion.Convert — the rows of a view as booleans, integers, doubles and strings.

A row converts by its own type, whatever the type that covers all rows. Null and absent rows are
missing. Integers have 32 bits: an integral literal beyond them overflows, and a number with a
fraction or an exponent is no integer. Doubles are the closest ones to the literal, and overflow
where the closest one is infinite. A string converts when its escapes decode.
-/
import JsonLines.Coercion.Coerced
import JsonLines.Number.Shortest

namespace JsonLines

namespace Numeral

/-- The value of an integral literal. -/
def toInt (n : Numeral) : Int :=
  let magnitude : Int := ofDigits n.whole
  if n.negative then -magnitude else magnitude

/-- The value of exponent digits. Digits that come after the value has reached 65536 no longer
count: no literal in memory is long enough to make up for such a power of ten. -/
def exponentValue (digits : List Char) : Nat :=
  digits.foldl (fun power ch => if power < 65536 then power * 10 + digitValue ch else power) 0

/-- The power of ten of an exponent. -/
def power (exponent : Option Exponent) : Int :=
  match exponent with
  | none => 0
  | some e => if e.negative then -(exponentValue e.digits : Int) else exponentValue e.digits

/-- The double closest to the literal. -/
def toBinary64 (n : Numeral) : Binary64 :=
  let fraction := n.fraction.getD []
  Binary64.ofDecimal n.negative (ofDigits (n.whole ++ fraction))
    (power n.exponent - fraction.length)

end Numeral

namespace Convert

/-- The boolean of a row. -/
def boolean (kind : Kind) (text : List Char) : Outcome Bool :=
  match kind with
  | .null => .missing
  | .boolean => .value (text == ['t', 'r', 'u', 'e'])
  | _ => .invalid

/-- An integer has 32 bits. -/
def inRange (n : Int) : Bool := -(Word.half32 : Int) ≤ n && n < (Word.half32 : Int)

/-- The integer of a row. -/
def integer (kind : Kind) (text : List Char) : Outcome Int :=
  match kind with
  | .null => .missing
  | .integer =>
    match Numeral.ofChars? text with
    | none => .invalid
    | some n => if inRange n.toInt then .value n.toInt else .overflow
  | _ => .invalid

/-- The double of a row. -/
def real (kind : Kind) (text : List Char) : Outcome Binary64 :=
  match kind with
  | .null => .missing
  | .integer | .real =>
    match Numeral.ofChars? text with
    | none => .invalid
    | some n => if n.toBinary64.isFinite then .value n.toBinary64 else .overflow
  | _ => .invalid

/-- The string of a row. -/
def text (kind : Kind) (text : List Char) : Outcome String :=
  match kind with
  | .null => .missing
  | .text =>
    match Json.Literal.decode? text with
    | none => .invalid
    | some decoded => .value (String.ofList decoded)
  | _ => .invalid

end Convert

namespace View

variable {α : Type}

/-- What converting a cell gives. -/
def outcome (v : View) (convert : Kind → List Char → Outcome α) (cell : Cell) : Outcome α :=
  if cell.isAbsent then .missing
  else
    match v.textOf? cell with
    | none => .invalid
    | some text => convert (v.schema.kind cell.type) text

/-- All rows converted. -/
def coerce (v : View) (convert : Kind → List Char → Outcome α) : Coerced α :=
  .ofOutcomes (v.numberedRows.map fun (cell, row) => (v.outcome convert cell, row))

/-- The rows as booleans. -/
def toBoolean (v : View) : Coerced Bool := v.coerce Convert.boolean

/-- The rows as 32-bit integers. -/
def toInteger (v : View) : Coerced Int := v.coerce Convert.integer

/-- The rows as doubles. -/
def toReal (v : View) : Coerced Binary64 := v.coerce Convert.real

/-- The rows as strings. -/
def toText (v : View) : Coerced String := v.coerce Convert.text

/-- The text of each row, none for an absent value. -/
def toJsonText (v : View) : List (Option String) :=
  v.rows.toList.map fun cell =>
    if cell.isAbsent then none else (v.textOf? cell).map String.ofList

/-- The range that a warning about integers names. -/
def integerRange : String := "integer"

/-- The range that a warning about doubles names. -/
def doubleRange : String := "double"

end View

end JsonLines
