/-
JsonLines.Dataset.Selection — views of a view.

`select` picks rows by number, in any order and as often as asked. `field?` projects every row onto
one of its members, `column` onto a field that is already known by number. `elements` makes a view
of the items of each row. A row that lacks the member, or is no object, becomes an absent value.
Every view is scanned again, so it has a schema of its own, and it keeps the source rows of its
rows.
-/
import JsonLines.Dataset.View

namespace JsonLines.View

/-- The view over the same source that picks and a provenance make. -/
def regather (v : View) (provenance : Provenance) (picks : List Pick) : Except Error View :=
  match Contents.gather v.source v.config.limits picks with
  | .error e => .error e
  | .ok contents => .ok { v with provenance, contents }

/-- The span of a cell that has a text. -/
def spanOf? (cell : Cell) : Option Span := if cell.isAbsent then none else some cell.span

/-- The rows of some numbers, which count from one. -/
def select (v : View) (indices : List Nat) : Except Error View :=
  match indices.find? fun i => i == 0 || v.rowCount < i with
  | some index => .error (.indexOutOfRange index v.rowCount)
  | none =>
    let picks := indices.map fun i =>
      { span := (v.rows[i - 1]?).bind spanOf?, row := v.rowNumber (i - 1) : Pick }
    v.regather (v.provenance.withRows (picks.map Pick.row).toArray) picks

/-- The member of each row that a name is bound to; `name` is the text of that name. -/
def column (v : View) (id : NameId) (name : String) : Except Error View :=
  v.regather (v.provenance.withField name) <|
    v.numberedRows.map fun (cell, row) => ⟨(cell.member? id).bind spanOf?, row⟩

/-- The member of each row that has a name, none when no value of the dataset has such a member. -/
def field? (v : View) (name : String) : Except Error (Option View) :=
  match v.schema.nameId? name with
  | none => .ok none
  | some id =>
    match v.column id name with
    | .error e => .error e
    | .ok view => .ok (some view)

/-- Some rows, or all of them, and then a field of theirs, or all of it. -/
def subset (v : View) (indices : Option (List Nat)) (name : Option String) :
    Except Error (Option View) :=
  let selected := match indices with
    | some indices => v.select indices
    | none => .ok v
  match selected with
  | .error e => .error e
  | .ok selected =>
    match name with
    | some name => selected.field? name
    | none => .ok (some selected)

/-- What a number stands for, which counts from one: a field of a record dataset, a row of any
other. -/
def subscript (v : View) (index : Nat) : Except Error View :=
  match v.fields? with
  | none => v.select [index]
  | some fields =>
    match (if index = 0 then none else fields[index - 1]?) with
    | none => .error (.indexOutOfRange index fields.length)
    | some field => v.column field.name (v.schema.name field.name)

/-- The columns of some fields with their names. -/
def columnsOf (v : View) : List Field → Except Error (List (String × View))
  | [] => .ok []
  | field :: fields =>
    let name := v.schema.name field.name
    match v.column field.name name with
    | .error e => .error e
    | .ok view =>
      match v.columnsOf fields with
      | .error e => .error e
      | .ok views => .ok ((name, view) :: views)

/-- The columns of a record dataset with their names; no other dataset has columns. -/
def columns (v : View) : Except Error (List (String × View)) := v.columnsOf (v.fields?.getD [])

/-- The items of one row, each from that row. -/
def itemsOf (v : View) (cell : Cell) (row : Nat) : Except Error View :=
  v.regather (v.provenance.withRows (Array.replicate cell.elements.length row)) <|
    cell.elements.map fun item => ⟨spanOf? item, row⟩

/-- The items of some rows, row by row. -/
def elementsOf (v : View) : List (Cell × Nat) → Except Error (List View)
  | [] => .ok []
  | (cell, row) :: rows =>
    match v.itemsOf cell row with
    | .error e => .error e
    | .ok view =>
      match v.elementsOf rows with
      | .error e => .error e
      | .ok views => .ok (view :: views)

/-- The items of each row; a row that is no array has none. -/
def elements (v : View) : Except Error (List View) := v.elementsOf v.numberedRows

end JsonLines.View
