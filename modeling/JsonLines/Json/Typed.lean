/-
JsonLines.Json.Typed — reading JSON into values of a known shape.

A typed reader knows which shape the next value must have, and its first fault ends the reading:
the text is wrong, or the value has another shape. A value of another shape is read to its end if it
is a scalar, so that its fault stands after it, and is not entered if it is a container. A record is
written as an object, whose unknown names are passed over and whose known ones must not repeat, or
as an array of its fields in order, of which the last ones may be left out.
-/
import JsonLines.Json.Node
import JsonLines.Json.Number
import JsonLines.Text.Inspect

namespace JsonLines.Json

/-- A reader of values of one shape. -/
abbrev Typed (α : Type) := Cursor → Except Fault (α × Cursor)

namespace Typed

/-- The decoded text of a literal whose opening quote comes next. -/
def readText : Typed String := fun c => do
  let (text, c) ← Literal.read (c.position + 1) c.rest.tail
  return (String.ofList text, c)

/-- The number that comes next. -/
def readNumber : Typed Number := fun c => do
  let (numeral, d) ← Numeral.read .eofValue c
  return (← Number.ofNumeral d.position numeral, d)

/-- A number as a message names it. -/
def foundNumber : Number → Found
  | .integer n => .integer (toString n)
  | .real x => .floating x.render

/-- What the next value is, and the cursor past it if it is a scalar. -/
def found : Typed Found := fun c =>
  match c.rest with
  | 'n' :: _ => do return (.null, ← Node.readWord c.skip ['u', 'l', 'l'])
  | 't' :: _ => do return (.boolean true, ← Node.readWord c.skip ['r', 'u', 'e'])
  | 'f' :: _ => do return (.boolean false, ← Node.readWord c.skip ['a', 'l', 's', 'e'])
  | '"' :: _ => do
    let (text, c) ← readText c
    return (.string (Inspect.text text), c)
  | '[' :: _ => .ok (.sequence, c)
  | '\x7b' :: _ => .ok (.map, c)
  | ch :: _ =>
    if ch = '-' ∨ ch.isDigit then do
      let (n, c) ← readNumber c
      return (foundNumber n, c)
    else .error (c.peek .expectedValue)
  | [] => .error (c.peek .eofValue)

/-- The fault of a value that has another shape than the expected one. -/
def wrongType {α : Type} (expected : String) : Typed α := fun c => do
  let (found, c) ← found c
  .error (c.here (.invalidType found expected))

/-- A boolean. -/
def boolean : Typed Bool := fun c =>
  let c := c.skipBlanks
  match c.rest with
  | 't' :: _ => do return (true, ← Node.readWord c.skip ['r', 'u', 'e'])
  | 'f' :: _ => do return (false, ← Node.readWord c.skip ['a', 'l', 's', 'e'])
  | _ => wrongType "a boolean" c

/-- An integer that is not negative and has at most 64 bits. -/
def natural : Typed Nat := fun c =>
  let expected := "usize"
  let c := c.skipBlanks
  match c.rest with
  | ch :: _ =>
    if ch = '-' ∨ ch.isDigit then do
      let (n, d) ← readNumber c
      match n with
      | .integer (.ofNat n) => .ok (n, d)
      | .integer n => .error (d.here (.invalidValue (foundNumber (.integer n)) expected))
      | .real x => .error (d.here (.invalidType (foundNumber (.real x)) expected))
    else wrongType expected c
  | [] => wrongType expected c

/-- Null, or a value of a shape. -/
def nullable {α : Type} (read : Typed α) : Typed (Option α) := fun c =>
  let c := c.skipBlanks
  match c.rest with
  | 'n' :: _ => do return (none, ← Node.readWord c.skip ['u', 'l', 'l'])
  | _ => do
    let (a, c) ← read c
    return (some a, c)

/-- Null and nothing else. -/
def unit : Typed Unit := fun c =>
  let c := c.skipBlanks
  match c.rest with
  | 'n' :: _ => do return ((), ← Node.readWord c.skip ['u', 'l', 'l'])
  | _ => wrongType "unit" c

/-- The cursor past the colon that comes next. -/
def skipColon (c : Cursor) : Except Fault Cursor :=
  let c := c.skipBlanks
  match c.rest with
  | [] => .error (c.peek .eofObject)
  | ':' :: _ => .ok c.skip
  | _ :: _ => .error (c.peek .expectedColon)

/-- The value of a name that comes next as a literal. -/
def named {α : Type} (names : List (String × α)) : Typed α := fun c => do
  let (name, d) ← readText c
  match names.find? (·.1 = name) with
  | some (_, a) => return (a, d)
  | none => .error (d.here (.unknownVariant name (names.map (·.1))))

/-- One of some names: a string, or an object with that name as its only member, bound to null. -/
def oneOf {α : Type} (names : List (String × α)) : Typed α := fun c =>
  let c := c.skipBlanks
  match c.rest with
  | [] => .error (c.peek .eofValue)
  | '"' :: _ => named names c
  | '\x7b' :: _ => do
    let c := c.skip.skipBlanks
    let (a, c) ← match c.rest with
      | '"' :: _ => named names c
      | _ => wrongType "variant identifier" c
    let ((), c) ← unit (← skipColon c)
    let c := c.skipBlanks
    match c.rest with
    | [] => .error (c.here .eofObject)
    | '\x7d' :: _ => return (a, c.skip)
    | _ :: _ => .error (c.here .expectedValue)
  | _ :: _ => .error (c.peek .expectedValue)

/-- A field of a record: its name, and how its value changes the record. -/
structure FieldReader (σ : Type) where
  name : String
  read : σ → Typed σ

variable {σ : Type}

/-- Whether another item of an array follows; a comma before it is taken. -/
def moreItems (first : Bool) (c : Cursor) : Except Fault (Bool × Cursor) :=
  let c := c.skipBlanks
  match c.rest with
  | [] => .error (c.peek .eofList)
  | ']' :: _ => .ok (false, c)
  | ch :: _ =>
    if first then .ok (true, c)
    else if ch = ',' then
      let c := c.skip.skipBlanks
      match c.rest with
      | [] => .error (c.peek .eofValue)
      | ']' :: _ => .error (c.peek .trailingComma)
      | _ :: _ => .ok (true, c)
    else .error (c.peek .expectedListCommaOrEnd)

/-- The end of an array of which no more items are wanted. -/
def endItems (c : Cursor) : Except Fault Cursor :=
  let c := c.skipBlanks
  match c.rest with
  | [] => .error (c.peek .eofList)
  | ']' :: _ => .ok c.skip
  | ',' :: _ =>
    let c := c.skip.skipBlanks
    match c.rest with
    | ']' :: _ => .error (c.peek .trailingComma)
    | _ => .error (c.peek .trailingCharacters)
  | _ :: _ => .error (c.peek .trailingCharacters)

/-- The fields of a record from an array, in order, as many as there are items. -/
def readItems (first : Bool) (record : σ) : List (FieldReader σ) → Typed σ
  | [], c => do return (record, ← endItems c)
  | field :: fields, c => do
    let (more, c) ← moreItems first c
    if more then
      let (record, c) ← field.read record c
      readItems false record fields c
    else return (record, ← endItems c)

/-- Whether another member of an object follows; a comma before it is taken. -/
def moreMembers (first : Bool) (c : Cursor) : Except Fault (Bool × Cursor) :=
  let c := c.skipBlanks
  match c.rest with
  | [] => .error (c.peek .eofObject)
  | '\x7d' :: _ => .ok (false, c)
  | ch :: _ =>
    if first then
      if ch = '"' then .ok (true, c) else .error (c.peek .keyMustBeString)
    else if ch = ',' then
      let c := c.skip.skipBlanks
      match c.rest with
      | [] => .error (c.peek .eofValue)
      | '"' :: _ => .ok (true, c)
      | '\x7d' :: _ => .error (c.peek .trailingComma)
      | _ :: _ => .error (c.peek .keyMustBeString)
    else .error (c.peek .expectedObjectCommaOrEnd)

/-- Where a repeated name is reported: past the blanks after it, and past a brace that ends the
object there. -/
def repeatedAt (c : Cursor) : Cursor :=
  let c := c.skipBlanks
  match c.rest with
  | '\x7d' :: _ => c.skip
  | _ => c

/-- The fields of a record from the members of an object, whose known names so far are `seen`. Each
member takes a character of the text, so its length bounds their number. -/
def readMembers (fields : List (FieldReader σ)) :
    Nat → List String → Bool → σ → Typed σ
  | 0, _, _, _, c => .error (c.peek .eofObject)
  | room + 1, seen, first, record, c => do
    let (more, c) ← moreMembers first c
    if more then
      let (name, c) ← readText c
      match fields.find? (·.name = name) with
      | none =>
        let (_, c) ← Node.read (← skipColon c)
        readMembers fields room seen false record c
      | some field =>
        if name ∈ seen then .error ((repeatedAt c).here (.duplicateField name))
        else
          let (record, c) ← field.read record (← skipColon c)
          readMembers fields room (name :: seen) false record c
    else return (record, c.skip)

/-- A record: an object or an array. Fields that are left out keep the value they have in
`default`. -/
def record (name : String) (fields : List (FieldReader σ)) (default : σ) : Typed σ := fun c =>
  let c := c.skipBlanks
  match c.rest with
  | '[' :: _ => readItems true default fields c.skip
  | '\x7b' :: _ => readMembers fields (c.rest.length + 1) [] true default c.skip
  | _ => wrongType ("struct " ++ name) c

/-- The value that a whole text writes. -/
def parse {α : Type} (read : Typed α) (cs : List Char) : Except Fault α := do
  let (a, c) ← read ⟨0, cs⟩
  let c := c.skipBlanks
  match c.rest with
  | [] => return a
  | _ :: _ => .error (c.peek .trailingCharacters)

end Typed

end JsonLines.Json
