/-
JsonLines.Command.Report — what a command has found out.

A report says the same thing twice, as a text for people and as a JSON message for programs. The
values of a view become JSON one by one: booleans, numbers and strings as they are, missing ones as
null, the items of an array in an array of their own, and any other row as the JSON it was read
from.
-/
import JsonLines.Columns.RowGroups
import JsonLines.Command.RowList
import JsonLines.Json.Value

namespace JsonLines

/-- A table that is to be written to a file. -/
structure Export where
  path : String
  layout : FileLayout
  batch : Batch
deriving DecidableEq, Repr

/-- A report for programs and for people, and the file that is left to write. -/
structure Report where
  message : Json.Value
  text : String
  export? : Option Export := none
deriving Repr, Inhabited

namespace View

/-! ## Selecting -/

/-- The view at the end of a path of names; `path` is the whole path, which an error names. -/
def descend (path : String) (v : View) : List (List Char) → Except Error View
  | [] => .ok v
  | name :: names =>
    match v.field? (String.ofList name) with
    | .error e => .error e
    | .ok none => .error (.unknownField path)
    | .ok (some view) => view.descend path names

/-- The rows of a list, or all of them. -/
def selectList (v : View) (rows : Option String) : Except Error View :=
  match rows with
  | none => .ok v
  | some list =>
    match RowList.parse v.rowCount list with
    | .error e => .error e
    | .ok indices => v.select indices

/-- Some rows, or all of them, and then what a path leads to. The names on a path stand between
points, so a name that holds a point cannot be reached. -/
def selectPath (v : View) (rows path : Option String) : Except Error View :=
  match v.selectList rows with
  | .error e => .error e
  | .ok selected =>
    match path with
    | none => .ok selected
    | some path => selected.descend path (Files.splitOn '.' path.toList)

/-! ## Values -/

/-- A value that may be missing. -/
def ofOption {α : Type} (value : α → Json.Value) : Option α → Json.Value
  | none => .null
  | some a => value a

/-- The JSON of some texts, up to the first one that is refused. -/
def valuesOfTexts : List (Option String) → Except Error (List Json.Value)
  | [] => .ok []
  | none :: texts =>
    match valuesOfTexts texts with
    | .error e => .error e
    | .ok values => .ok (.null :: values)
  | some text :: texts =>
    match Json.Value.parse text.toList with
    | .error fault => .error (.malformedJson fault)
    | .ok value =>
      match valuesOfTexts texts with
      | .error e => .error e
      | .ok values => .ok (value :: values)

/-- An array for each of some views, made of what `values` gives for it. -/
def arraysOf (values : View → Except Error (List Json.Value)) :
    List View → Except Error (List Json.Value)
  | [] => .ok []
  | view :: views =>
    match values view with
    | .error e => .error e
    | .ok items =>
      match arraysOf values views with
      | .error e => .error e
      | .ok arrays => .ok (.array items :: arrays)

/-- One JSON value for each row, of a view whose arrays nest less than `room` deep. -/
def valuesWithin : Nat → View → Except Error (List Json.Value)
  | 0, _ => .ok []
  | room + 1, v =>
    match v.simplify with
    | .error e => .error e
    | .ok (.boolean values) => .ok (values.map (ofOption .boolean))
    | .ok (.integer values) => .ok (values.map (ofOption fun n => .number (.integer n)))
    | .ok (.real values) => .ok (values.map (ofOption fun x => .number (.real x)))
    | .ok (.text values) => .ok (values.map (ofOption .string))
    | .ok (.list views) => arraysOf (valuesWithin room) views
    | .ok (.dataset view) => valuesOfTexts view.toJsonText

/-- One JSON value for each row. Values nest at most as deep as the settings allow. -/
def toJsonValues (v : View) : Except Error (List Json.Value) :=
  valuesWithin (v.config.limits.maxDepth + 1) v

/-! ## Reports -/

/-- The number of rows and the type that covers them. -/
def schemaReport (v : View) : Report :=
  { message := .ofMembers
      [("type", .string "SCHEMA"), ("rows", .ofNat v.rowCount), ("kind", .string v.kind.name),
       ("datatype", .string v.datatype)]
    text := v.description }

/-- The fields and their types, of a record dataset. -/
def fieldsReport (v : View) : Except Error Report :=
  match v.datatypes? with
  | none => .error (.noFields v.datatype)
  | some fields =>
    .ok
      { message := .ofMembers
          [("type", .string "FIELDS"),
           ("fields", .array (fields.map fun (name, datatype) =>
              .ofMembers [("name", .string name), ("datatype", .string datatype)]))]
        text := String.intercalate "\n" <|
          fields.map fun (name, datatype) => name ++ ": " ++ datatype }

/-- The number of rows. -/
def countReport (v : View) : Report :=
  { message := .ofMembers [("type", .string "COUNT"), ("rows", .ofNat v.rowCount)]
    text := toString v.rowCount }

/-- The line of a row in the report of values. -/
def valueLine (row : Nat) (value : Json.Value) : String := toString row ++ ": " ++ value.compact

/-- The values, each with its source row. -/
def valuesReport (v : View) : Except Error Report :=
  match v.simplify with
  | .error e => .error e
  | .ok simplified =>
    match v.toJsonValues with
    | .error e => .error e
    | .ok values =>
      .ok
        { message := .ofMembers
            [("type", .string "VALUES"), ("field", ofOption .string v.provenance.fieldPath),
             ("kind", .string simplified.name), ("rows", .array (v.rowNumbers.map .ofNat)),
             ("values", .array values)]
          text := String.intercalate "\n" (List.zipWith valueLine v.rowNumbers values) }

/-- The columnar file of the dataset can be written to a path. -/
def checkExport (v : View) (files : Files) (output : String) : Except Error Batch :=
  match v.toFileBatch with
  | .error e => .error e
  | .ok batch =>
    match files.checkCreatable output with
    | .error e => .error e
    | .ok () => .ok batch

/-- The columnar file that is written, and the number of its rows. The compression is known before
anything is converted. -/
def exportReport (v : View) (files : Files) (output compression : String) : Except Error Report :=
  match Compression.parse compression with
  | .error e => .error e
  | .ok compression =>
    match v.checkExport files output with
    | .error e => .error (.exportFailed output e)
    | .ok batch =>
      .ok
        { message := .ofMembers
            [("type", .string "EXPORT"), ("path", .string output), ("rows", .ofNat batch.rowCount)]
          text := "wrote " ++ toString batch.rowCount ++ " rows to " ++ output
          export? := some { path := output, layout := { compression }, batch } }

end View

end JsonLines
