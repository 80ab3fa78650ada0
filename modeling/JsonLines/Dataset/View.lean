/-
JsonLines.Dataset.View — a dataset whose rows are at hand.

A view holds contents gathered from a source, and says where they came from. A record dataset is
one whose covering type is a record: it has fields, and its length counts them; the length of any
other dataset counts its rows.
-/
import JsonLines.Dataset.Contents
import JsonLines.Dataset.Provenance
import JsonLines.Schema.Render

namespace JsonLines

/-- Rows of a source, and where they came from. -/
structure View where
  source : ByteSource
  config : Config
  provenance : Provenance
  contents : Contents

namespace View

/-- The view of a whole source. -/
def load (source : ByteSource) (config : Config) : Except Error View :=
  match Contents.load source config with
  | .error e => .error e
  | .ok contents => .ok { source, config, provenance := .root, contents }

/-- The schema of the rows. -/
def schema (v : View) : Schema := v.contents.schema

/-- The scanned rows. -/
def rows (v : View) : Array Cell := v.contents.rows

/-- The type that covers all rows. -/
def type (v : View) : TypeId := v.contents.type

/-- The kind of the type that covers all rows. -/
def kind (v : View) : Kind := v.contents.kind

/-- The number of rows. -/
def rowCount (v : View) : Nat := v.rows.size

/-- The fields of a record dataset. -/
def fields? (v : View) : Option (List Field) := v.schema.fields? v.type

/-- The number of fields of a record dataset, the number of rows of any other. -/
def length (v : View) : Nat :=
  match v.fields? with
  | some fields => fields.length
  | none => v.rowCount

/-- The covering type is a record. -/
def isRecord (v : View) : Bool := v.kind = .record

/-- The numbers of rows and of fields of a record dataset. -/
def dimensions? (v : View) : Option (Nat × Nat) :=
  v.fields?.map fun fields => (v.rowCount, fields.length)

/-- The names of the fields of a record dataset. -/
def names? (v : View) : Option (List String) :=
  v.fields?.map fun fields => fields.map fun field => v.schema.name field.name

/-- The covering type on one line. -/
def datatype (v : View) : String := v.schema.display v.type

/-- The names of the fields of a record dataset and their types on one line. -/
def datatypes? (v : View) : Option (List (String × String)) :=
  v.fields?.map fun fields => fields.map fun field =>
    (v.schema.name field.name,
      v.schema.display field.type ++ (if field.optional then "?" else ""))

/-- The source row of the row at `index`, which counts from zero. -/
def rowNumber (v : View) (index : Nat) : Nat := v.provenance.rowNumber index

/-- The source row of each row. -/
def rowNumbers (v : View) : List Nat := (List.range v.rowCount).map v.rowNumber

/-- Each row with its source row. -/
def numberedRows (v : View) : List (Cell × Nat) :=
  v.rows.toList.zipIdx.map fun (cell, index) => (cell, v.rowNumber index)

/-- The bytes of the text of a cell. -/
def bytesOf (v : View) (cell : Cell) : ByteArray := v.source.slice cell.span

/-- The characters of the text of a cell. -/
def textOf? (v : View) (cell : Cell) : Option (List Char) :=
  match Utf8.decode (v.bytesOf cell) with
  | .error _ => none
  | .ok text => some text

/-- The text of the row at `index`, empty for an absent value. -/
def rowText? (v : View) (index : Nat) : Option String :=
  (v.rows[index]?).bind fun cell => (v.textOf? cell).map String.ofList

/-- What the dataset is, in words. -/
def description (v : View) : String :=
  let rows := "JSON dataset with " ++ toString v.rowCount ++ " rows of "
  if v.isRecord then rows ++ "the following type:\n" ++ v.schema.pretty v.type
  else rows ++ "type " ++ v.datatype

end View

end JsonLines
