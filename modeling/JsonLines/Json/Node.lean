/-
JsonLines.Json.Node — JSON texts as trees of placed values.

A node is a value of the text together with its span. String literals keep their characters as
written: whether they decode is decided where they are read, as a name or as a value. Members stay
in the order of the text, repeated names included. `Node.parse` reads a whole text; blanks may
surround every value, and nothing else may be left over.
-/
import JsonLines.Json.Literal
import JsonLines.Json.Numeral

namespace JsonLines.Json

/-- The name of a member: the position past its opening quote, and its characters as written. -/
structure Key where
  position : Nat
  raw : List Char
deriving DecidableEq, Repr

/-- The decoded name, or the fault that keeps it from decoding. -/
def Key.decode (key : Key) : Except Fault (List Char) :=
  match Literal.read key.position (key.raw ++ ['"']) with
  | .error e => .error e
  | .ok (text, _) => .ok text

/-- A value of a text, with the span of its own text. -/
inductive Node where
  | null (span : Span)
  | boolean (span : Span) (value : Bool)
  | number (span : Span) (numeral : Numeral)
  | text (span : Span) (raw : List Char)
  | array (span : Span) (items : List Node)
  | object (span : Span) (members : List (Key × Node))
deriving Repr, Inhabited

namespace Node

/-- Where the text of the value stands. -/
def span : Node → Span
  | .null s | .boolean s _ | .number s _ | .text s _ | .array s _ | .object s _ => s

/-- The remaining letters of a word whose first letter is read. -/
def readWord (c : Cursor) : List Char → Except Fault Cursor
  | [] => .ok c
  | letter :: word =>
    match c.rest with
    | [] => .error (c.here .eofValue)
    | ch :: _ => if ch = letter then readWord c.skip word else .error (c.peek .expectedIdent)

/-- A value that is neither array nor object, at a cursor that stands at its first character. -/
def readScalar (c : Cursor) : Except Fault (Node × Cursor) :=
  match c.rest with
  | 'n' :: _ =>
    match readWord c.skip ['u', 'l', 'l'] with
    | .error e => .error e
    | .ok d => .ok (.null (c.spanTo d), d)
  | 't' :: _ =>
    match readWord c.skip ['r', 'u', 'e'] with
    | .error e => .error e
    | .ok d => .ok (.boolean (c.spanTo d) true, d)
  | 'f' :: _ =>
    match readWord c.skip ['a', 'l', 's', 'e'] with
    | .error e => .error e
    | .ok d => .ok (.boolean (c.spanTo d) false, d)
  | '"' :: rest =>
    match Literal.skim (c.position + 1) rest with
    | .error e => .error e
    | .ok (raw, d) => .ok (.text (c.spanTo d) raw, d)
  | ch :: _ =>
    if ch = '-' ∨ ch.isDigit then
      match Numeral.read .invalidNumber c with
      | .error e => .error e
      | .ok (numeral, d) => .ok (.number (c.spanTo d) numeral, d)
    else .error (c.peek .expectedValue)
  | [] => .error (c.peek .eofValue)

/-- A name and the colon after it, at a cursor that stands at the first character. -/
def readKey (c : Cursor) : Except Fault (Key × Cursor) :=
  match c.rest with
  | [] => .error (c.peek .eofObject)
  | '"' :: rest =>
    match Literal.skim (c.position + 1) rest with
    | .error e => .error e
    | .ok (raw, d) =>
      let d := d.skipBlanks
      match d.rest with
      | [] => .error (d.peek .eofObject)
      | ':' :: _ => .ok (⟨c.position + 1, raw⟩, d.skip)
      | _ :: _ => .error (d.peek .expectedColon)
  | _ :: _ => .error (c.peek .keyMustBeString)

mutual

/-- A value with the blanks before it. The first argument bounds the calls that are still allowed;
`parse` gives as many as the text can need. -/
def readValue : Nat → Cursor → Except Fault (Node × Cursor)
  | 0, c => .error (c.peek .expectedValue)
  | room + 1, c =>
    let c := c.skipBlanks
    match c.rest with
    | '[' :: _ =>
      let d := c.skip.skipBlanks
      match d.rest with
      | [] => .error (d.peek .eofList)
      | ']' :: _ => .ok (.array (c.spanTo d.skip) [], d.skip)
      | _ :: _ =>
        match readItems room d with
        | .error e => .error e
        | .ok (items, d) => .ok (.array (c.spanTo d) items, d)
    | '\x7b' :: _ =>
      let d := c.skip.skipBlanks
      match d.rest with
      | [] => .error (d.peek .eofObject)
      | '\x7d' :: _ => .ok (.object (c.spanTo d.skip) [], d.skip)
      | _ :: _ =>
        match readMembers room d with
        | .error e => .error e
        | .ok (members, d) => .ok (.object (c.spanTo d) members, d)
    | _ => readScalar c

/-- The items of an array from the next one on, and the bracket that closes it. -/
def readItems : Nat → Cursor → Except Fault (List Node × Cursor)
  | 0, c => .error (c.peek .expectedValue)
  | room + 1, c =>
    match readValue room c with
    | .error e => .error e
    | .ok (item, d) =>
      let d := d.skipBlanks
      match d.rest with
      | [] => .error (d.peek .eofList)
      | ']' :: _ => .ok ([item], d.skip)
      | ',' :: _ =>
        match readItems room d.skip with
        | .error e => .error e
        | .ok (items, d) => .ok (item :: items, d)
      | _ :: _ => .error (d.peek .expectedListCommaOrEnd)

/-- The members of an object from the next one on, and the brace that closes it. -/
def readMembers : Nat → Cursor → Except Fault (List (Key × Node) × Cursor)
  | 0, c => .error (c.peek .expectedValue)
  | room + 1, c =>
    match readKey c.skipBlanks with
    | .error e => .error e
    | .ok (key, d) =>
      match readValue room d with
      | .error e => .error e
      | .ok (value, d) =>
        let d := d.skipBlanks
        match d.rest with
        | [] => .error (d.peek .eofObject)
        | '\x7d' :: _ => .ok ([(key, value)], d.skip)
        | ',' :: _ =>
          match readMembers room d.skip with
          | .error e => .error e
          | .ok (members, d) => .ok ((key, value) :: members, d)
        | _ :: _ => .error (d.peek .expectedObjectCommaOrEnd)

end

/-- The value at a cursor, with the blanks before it: each call reads a character or is followed
by one that does, so twice the length of the text is room enough. -/
def read (c : Cursor) : Except Fault (Node × Cursor) := readValue (2 * c.rest.length + 2) c

/-- The value that a whole text writes, when its first byte is at position `start`. -/
def parse (start : Nat) (cs : List Char) : Except Fault Node :=
  match read ⟨start, cs⟩ with
  | .error e => .error e
  | .ok (node, c) =>
    match c.skipBlanks.rest with
    | [] => .ok node
    | _ :: _ => .error (c.skipBlanks.peek .trailingCharacters)

end Node

end JsonLines.Json
