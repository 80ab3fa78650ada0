/-
JsonLines.Json.Numeral — number literals, as they are written.

A numeral keeps the digits of its three parts. `Numeral.read` takes the longest literal at a
cursor: an optional minus sign, a whole part without needless zeros, and optionally a fraction and
an exponent. A literal without fraction and exponent is integral. A literal that the end of the text
cuts short is a fault whose cause the reader chooses.
-/
import JsonLines.Json.Cursor

namespace JsonLines

/-- A power of ten written after the letter `e`. -/
structure Exponent where
  negative : Bool
  digits : List Char
deriving DecidableEq, Repr

/-- A number literal: sign, whole part, and the parts that it may lack. -/
structure Numeral where
  negative : Bool
  whole : List Char
  fraction : Option (List Char)
  exponent : Option Exponent
deriving DecidableEq, Repr

namespace Numeral

/-- The value of a decimal digit. -/
def digitValue (ch : Char) : Nat := ch.toNat - 48

/-- The number that decimal digits write, most significant first. -/
def ofDigits (digits : List Char) : Nat := digits.foldl (fun n ch => n * 10 + digitValue ch) 0

/-- The literal has neither fraction nor exponent. -/
def isIntegral (n : Numeral) : Bool := n.fraction.isNone && n.exponent.isNone

/-- The digits that come next, and the cursor past them. -/
def readDigits (c : Json.Cursor) : List Char × Json.Cursor :=
  let digits := c.rest.takeWhile Char.isDigit
  (digits, ⟨c.position + digits.length, c.rest.dropWhile Char.isDigit⟩)

/-- The fault of a missing digit at a cursor. -/
def missingDigit (cutShort : Json.Cause) (c : Json.Cursor) : Json.Fault :=
  c.peek (if c.rest.isEmpty then cutShort else .invalidNumber)

/-- The whole part: a single zero, or digits that do not start with one. -/
def readWhole (cutShort : Json.Cause) (c : Json.Cursor) :
    Except Json.Fault (List Char × Json.Cursor) :=
  match c.rest with
  | [] => .error (missingDigit cutShort c)
  | ch :: _ =>
    if ch = '0' then
      match c.skip.rest with
      | d :: _ => if d.isDigit then .error (c.skip.peek .invalidNumber) else .ok (['0'], c.skip)
      | [] => .ok (['0'], c.skip)
    else if ch.isDigit then .ok (readDigits c)
    else .error (missingDigit cutShort c)

/-- The fraction, if a point comes next; at least one digit follows the point. -/
def readFraction (cutShort : Json.Cause) (c : Json.Cursor) :
    Except Json.Fault (Option (List Char) × Json.Cursor) :=
  match c.rest with
  | '.' :: _ =>
    match readDigits c.skip with
    | ([], d) => .error (missingDigit cutShort d)
    | (digits, d) => .ok (some digits, d)
  | _ => .ok (none, c)

/-- The digits of an exponent, at least one. -/
def readExponentDigits (cutShort : Json.Cause) (negative : Bool) (c : Json.Cursor) :
    Except Json.Fault (Option Exponent × Json.Cursor) :=
  match readDigits c with
  | ([], d) => .error (missingDigit cutShort d)
  | (digits, d) => .ok (some ⟨negative, digits⟩, d)

/-- The exponent, if its letter comes next. -/
def readExponent (cutShort : Json.Cause) (c : Json.Cursor) :
    Except Json.Fault (Option Exponent × Json.Cursor) :=
  match c.rest with
  | ch :: rest =>
    if ch = 'e' ∨ ch = 'E' then
      match rest with
      | '+' :: _ => readExponentDigits cutShort false c.skip.skip
      | '-' :: _ => readExponentDigits cutShort true c.skip.skip
      | _ => readExponentDigits cutShort false c.skip
    else .ok (none, c)
  | [] => .ok (none, c)

/-- The longest number literal at a cursor that stands at a minus sign or a digit. -/
def read (cutShort : Json.Cause) (c : Json.Cursor) : Except Json.Fault (Numeral × Json.Cursor) :=
  let (negative, c) := match c.rest with
    | '-' :: _ => (true, c.skip)
    | _ => (false, c)
  match readWhole cutShort c with
  | .error e => .error e
  | .ok (whole, c) =>
    match readFraction cutShort c with
    | .error e => .error e
    | .ok (fraction, c) =>
      match readExponent cutShort c with
      | .error e => .error e
      | .ok (exponent, c) => .ok (⟨negative, whole, fraction, exponent⟩, c)

/-- The numeral that a whole text writes, if it writes one. -/
def ofChars? (cs : List Char) : Option Numeral :=
  match read .invalidNumber ⟨0, cs⟩ with
  | .ok (n, ⟨_, []⟩) => some n
  | _ => none

end Numeral

end JsonLines
