/-
JsonLines.Scan.Cell — values that were scanned: places and types, no text.

A cell points into the source by its span and into the schema by its type. An absent value is a
cell without text, of type null.
-/
import JsonLines.Source.Span
import JsonLines.Schema.DataType

namespace JsonLines

/-- A scanned value. The cells inside an array or a record are in the order of the text. -/
inductive Cell where
  | leaf (span : Span) (type : TypeId)
  | array (span : Span) (type : TypeId) (cells : List Cell)
  | record (span : Span) (type : TypeId) (members : List (NameId × Cell))
deriving Repr, Inhabited

namespace Cell

/-- Where the text of the value stands. -/
def span : Cell → Span
  | .leaf s _ | .array s _ _ | .record s _ _ => s

/-- The type of the value in the schema it was scanned into. -/
def type : Cell → TypeId
  | .leaf _ t | .array _ t _ | .record _ t _ => t

/-- The value that is not there. -/
def absent : Cell := .leaf .empty .null

/-- The value is null or not there. -/
def isNull (c : Cell) : Bool := c.type = .null

/-- The value has no text. -/
def isAbsent (c : Cell) : Bool := c.span.isEmpty

/-- The items of an array, none for any other value. -/
def elements : Cell → List Cell
  | .array _ _ cells => cells
  | _ => []

/-- The members of an object, none for any other value. -/
def members : Cell → List (NameId × Cell)
  | .record _ _ members => members
  | _ => []

/-- The member of a name. -/
def member? (c : Cell) (name : NameId) : Option Cell :=
  (c.members.find? (·.1 = name)).map (·.2)

end Cell

end JsonLines
