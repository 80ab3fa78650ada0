/-
JsonLines.Columns.Document — a table as a JSON document.

The document names the codec, the sizes of the row groups, and for each column its name, its type
and its values from the first row to the last.
-/
import JsonLines.Columns.RowGroups
import JsonLines.Json.Value

namespace JsonLines

/-- Values that may be missing. -/
def ColumnValues.items {α : Type} (value : α → Json.Value) (values : List (Option α)) :
    Json.Value :=
  .array (values.map fun
    | none => .null
    | some a => value a)

/-- The values of a column, first to last. -/
def ColumnValues.toJson : ColumnValues → Json.Value
  | .boolean values => items .boolean values
  | .int32 values => items (fun n => .number (.integer n)) values
  | .float64 values => items (fun x => .number (.real x)) values
  | .utf8 values => items .string values

/-- The document of a table that is laid out for a file. -/
def Batch.toJson (layout : FileLayout) (batch : Batch) : Json.Value :=
  .ofMembers
    [("codec", .string layout.compression.name),
     ("row_groups", .array ((rowGroups layout.rowGroupSize batch.rowCount).map .ofNat)),
     ("columns", .array (batch.columns.map fun (name, values) =>
        .ofMembers
          [("name", .string name), ("type", .string values.typeName), ("values", values.toJson)]))]

end JsonLines
