/-
JsonLines.Columns.Batch — datasets as tables of typed columns.

A record dataset has one column for each field, any other dataset a single one named `value`. A
column takes the type of its simplified form; lists and whole datasets are written as JSON text. In
a column every value may be missing.

The texts of a column stand in memory one after the other, and each is found by its offset from the
first. Offsets are signed numbers of 32 bits. Here a column is a list, which has no such bound, so a
table stands for one in memory only if its texts fit (`Batch.TextFits`); no table comes of others.
-/
import JsonLines.Coercion.Simplified

namespace JsonLines

/-- The values of a column. -/
inductive ColumnValues where
  | boolean (values : List (Option Bool))
  | int32 (values : List (Option Int))
  | float64 (values : List (Option Binary64))
  | utf8 (values : List (Option String))
deriving DecidableEq, Repr

namespace ColumnValues

/-- The name of the type of the values. -/
def typeName : ColumnValues → String
  | .boolean _ => "Boolean"
  | .int32 _ => "Int32"
  | .float64 _ => "Float64"
  | .utf8 _ => "Utf8"

/-- The number of missing values. -/
def nullCount : ColumnValues → Nat
  | .boolean values => (values.filter Option.isNone).length
  | .int32 values => (values.filter Option.isNone).length
  | .float64 values => (values.filter Option.isNone).length
  | .utf8 values => (values.filter Option.isNone).length

/-- The greatest offset into the texts of a column. -/
def textLimit : Nat := Word.half32 - 1

/-- The bytes of the texts of a column. -/
def textSize : ColumnValues → Nat
  | .utf8 values => (values.filterMap id).foldl (fun size text => size + text.utf8ByteSize) 0
  | _ => 0

/-- Offsets reach to the end of the texts. -/
def TextFits (column : ColumnValues) : Prop := column.textSize ≤ textLimit

end ColumnValues

/-- A table: named columns of the same number of rows. -/
structure Batch where
  rowCount : Nat
  columns : List (String × ColumnValues)
deriving DecidableEq, Repr

/-- The texts of every column fit. -/
def Batch.TextFits (batch : Batch) : Prop := ∀ column ∈ batch.columns, column.2.TextFits

namespace View

/-- The values of a view as a column. -/
def toColumn (v : View) : Except Error ColumnValues :=
  match v.simplify with
  | .error e => .error e
  | .ok (.boolean values) => .ok (.boolean values)
  | .ok (.integer values) => .ok (.int32 values)
  | .ok (.real values) => .ok (.float64 values)
  | .ok (.text values) => .ok (.utf8 values)
  | .ok (.list _) => .ok (.utf8 v.toJsonText)
  | .ok (.dataset _) => .ok (.utf8 v.toJsonText)

/-- Views as columns, one after the other. -/
def toColumns : List (String × View) → Except Error (List (String × ColumnValues))
  | [] => .ok []
  | (name, view) :: views =>
    match view.toColumn with
    | .error e => .error e
    | .ok column =>
      match toColumns views with
      | .error e => .error e
      | .ok columns => .ok ((name, column) :: columns)

/-- The name of the column of a dataset that is not made of records. -/
def valueColumn : String := "value"

/-- The views that become the columns of the table. -/
def columnViews (v : View) : Except Error (List (String × View)) :=
  if v.isRecord then v.columns else .ok [(valueColumn, v)]

/-- The dataset as a table. -/
def toBatch (v : View) : Except Error Batch :=
  match v.columnViews with
  | .error e => .error e
  | .ok views =>
    match toColumns views with
    | .error e => .error e
    | .ok columns => .ok { rowCount := v.rowCount, columns }

end View

end JsonLines
