/-
JsonLines.Coercion.Coerced — rows converted to values of one kind.

Converting a row gives a value, or finds the row missing, or finds its type unfit, or its number
beyond the range. The source rows of the latter two are listed; all three leave a gap among the
values. What overflowed is worth a warning.
-/
import JsonLines.Dataset.View

namespace JsonLines

/-- What converting a row gives. -/
inductive Outcome (α : Type) where
  | value (a : α)
  | missing
  | overflow
  | invalid
deriving DecidableEq, Repr

namespace Outcome

variable {α : Type}

/-- The value, if there is one. -/
def toOption : Outcome α → Option α
  | .value a => some a
  | _ => none

/-- The row has a number beyond the range. -/
def isOverflow : Outcome α → Bool
  | .overflow => true
  | _ => false

/-- The row has a type that does not convert. -/
def isInvalid : Outcome α → Bool
  | .invalid => true
  | _ => false

end Outcome

/-- One value or gap for each row, and the source rows that overflowed or did not convert. -/
structure Coerced (α : Type) where
  values : List (Option α)
  overflowRows : List Nat
  invalidRows : List Nat
deriving DecidableEq, Repr

/-- A warning that numbers went missing because they are beyond a range. -/
structure Warning where
  target : String
  rows : List Nat
deriving DecidableEq, Repr

/-- The text of a warning. -/
def Warning.message (w : Warning) : String :=
  "missing values introduced by coercion to " ++ w.target ++ " range rows=["
    ++ String.intercalate ", " (w.rows.map toString) ++ "]"

namespace Coerced

variable {α : Type}

/-- The outcomes of rows, each with its source row. -/
def ofOutcomes (outcomes : List (Outcome α × Nat)) : Coerced α where
  values := outcomes.map (·.1.toOption)
  overflowRows := (outcomes.filter (·.1.isOverflow)).map (·.2)
  invalidRows := (outcomes.filter (·.1.isInvalid)).map (·.2)

/-- Some row overflowed. -/
def overflowed (c : Coerced α) : Bool := !c.overflowRows.isEmpty

/-- The number of gaps. -/
def missing (c : Coerced α) : Nat := (c.values.filter Option.isNone).length

/-- A warning if some row overflowed. -/
def warnings (c : Coerced α) (target : String) : List Warning :=
  if c.overflowed then [⟨target, c.overflowRows⟩] else []

end Coerced

end JsonLines
