/-
JsonLines.Coercion.Simplified — a view in the plainest form its type allows.

Nulls and booleans become booleans, strings become strings, reals become doubles. Integers become
integers if all of them have 32 bits, else doubles. Arrays become one view of items for each row.
Records and mixed values stay a view.
-/
import JsonLines.Coercion.Convert
import JsonLines.Dataset.Selection

namespace JsonLines

/-- A view in the plainest form its type allows: one value for each row. -/
inductive Simplified where
  | boolean (values : List (Option Bool))
  | integer (values : List (Option Int))
  | real (values : List (Option Binary64))
  | text (values : List (Option String))
  | list (views : List View)
  | dataset (view : View)

namespace Simplified

/-- The name of the form. -/
def name : Simplified → String
  | .boolean _ => "boolean"
  | .integer _ => "integer"
  | .real _ => "real"
  | .text _ => "text"
  | .list _ => "list"
  | .dataset _ => "dataset"

/-- The number of rows. -/
def length : Simplified → Nat
  | .boolean values => values.length
  | .integer values => values.length
  | .real values => values.length
  | .text values => values.length
  | .list views => views.length
  | .dataset view => view.rowCount

end Simplified

namespace View

/-- The numbers of the view are converted to doubles when it is simplified. -/
def widens (v : View) : Bool :=
  match v.kind with
  | .real => true
  | .integer => v.toInteger.overflowed
  | _ => false

/-- The view in the plainest form its type allows. -/
def simplify (v : View) : Except Error Simplified :=
  match v.kind with
  | .null | .boolean => .ok (.boolean v.toBoolean.values)
  | .integer =>
    if v.widens then .ok (.real v.toReal.values) else .ok (.integer v.toInteger.values)
  | .real => .ok (.real v.toReal.values)
  | .text => .ok (.text v.toText.values)
  | .array =>
    match v.elements with
    | .error e => .error e
    | .ok views => .ok (.list views)
  | .record | .any => .ok (.dataset v)

/-- The warnings of simplifying. -/
def simplifyWarnings (v : View) : List Warning :=
  if v.widens then v.toReal.warnings doubleRange else []

/-- Columns simplified one after the other. -/
def simplifyAll : List (String × View) → Except Error (List (String × Simplified))
  | [] => .ok []
  | (name, view) :: columns =>
    match view.simplify with
    | .error e => .error e
    | .ok simplified =>
      match simplifyAll columns with
      | .error e => .error e
      | .ok rest => .ok ((name, simplified) :: rest)

/-- The simplified columns of a record dataset with their names. -/
def simplifyColumns (v : View) : Except Error (List (String × Simplified)) :=
  match v.columns with
  | .error e => .error e
  | .ok columns => simplifyAll columns

end View

/-- Simplified once more: only what stayed a view can change, and it stays as it is. -/
def Simplified.simplify : Simplified → Except Error Simplified
  | .dataset view => view.simplify
  | other => .ok other

end JsonLines
