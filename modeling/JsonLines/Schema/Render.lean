/-
JsonLines.Schema.Render — the text of a type.

An array is written as its element type between brackets, a record as its fields between braces,
each a quoted name and a type; a question mark after the type marks an optional field. `display`
writes one line. `pretty` puts each field of a record on a line of its own, indented by four spaces
for each record around it.
-/
import JsonLines.Schema.Registry
import JsonLines.Json.Literal

namespace JsonLines.Schema

/-- What stands before the first field, between fields, and after the last one. -/
structure Layout where
  before : List Char
  between : List Char
  after : List Char

/-- A line feed, and four spaces for each level. -/
def indent (level : Nat) : List Char := '\n' :: List.replicate (4 * level) ' '

/-- The layout of a record inside `level` others. -/
def layout (multiline : Bool) (level : Nat) : Layout :=
  if multiline then ⟨indent (level + 1), ',' :: indent (level + 1), indent level⟩
  else ⟨[], [',', ' '], []⟩

/-- The characters of a word. -/
private def word (kind : Kind) : List Char := kind.name.toList

/-- The text of a type that nests at most as deep as the first argument says. -/
def renderWithin (s : Schema) (multiline : Bool) : Nat → Nat → TypeId → List Char
  | 0, _, _ => word .any
  | depth + 1, level, id =>
    match s.get? id with
    | none => word .any
    | some (.composite (.array element)) =>
      '[' :: (renderWithin s multiline depth level element ++ [']'])
    | some (.composite (.record [])) => ['\x7b', '\x7d']
    | some (.composite (.record fields)) =>
      let parts := fields.map fun field =>
        Json.Literal.quoteChars (s.name field.name).toList ++ ':' :: ' ' ::
          (renderWithin s multiline depth (level + 1) field.type ++
            (if field.optional then ['?'] else []))
      let layout := layout multiline level
      '\x7b' :: (layout.before ++ layout.between.intercalate parts ++ layout.after ++ ['\x7d'])
    | some type => word type.kind

/-- The text of a type on one line. -/
def display (s : Schema) (id : TypeId) : String :=
  String.ofList (s.renderWithin false s.size 0 id)

/-- The text of a type with each field on a line of its own. -/
def pretty (s : Schema) (id : TypeId) : String :=
  String.ofList (s.renderWithin true s.size 0 id)

end JsonLines.Schema
