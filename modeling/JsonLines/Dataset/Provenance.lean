/-
JsonLines.Dataset.Provenance — where the rows of a dataset came from.

A dataset knows the fields that led to it and, unless its rows are those of the source one by one,
the source row of each of its rows. Row numbers count from one and are 64-bit words.
-/
import JsonLines.Number.Word

namespace JsonLines

/-- The fields projected so far, outermost first, and the source row of each row. -/
structure Provenance where
  fields : List String := []
  rows : Option (Array Nat) := none
deriving DecidableEq, Repr, Inhabited

namespace Provenance

/-- The provenance of a dataset that was loaded from its source. -/
def root : Provenance := {}

/-- The fields joined by points, none if there are none. -/
def fieldPath (p : Provenance) : Option String :=
  if p.fields.isEmpty then none else some (String.intercalate "." p.fields)

/-- The source row of the row at `index`, which counts from zero. -/
def rowNumber (p : Provenance) (index : Nat) : Nat :=
  let next := (index + 1) % Word.modulus
  match p.rows with
  | none => next
  | some rows => (rows[index]?).getD next

/-- One more projected field. -/
def withField (p : Provenance) (name : String) : Provenance :=
  { p with fields := p.fields ++ [name] }

/-- The same fields, with other source rows. -/
def withRows (p : Provenance) (rows : Array Nat) : Provenance := { p with rows := some rows }

end Provenance

end JsonLines
