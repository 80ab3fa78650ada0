/-
JsonLines.Command.Request — what a command line asks for.

A request is a command with the input that it reads, and how its report is to be printed.
-/
import JsonLines.Text.Inspect

namespace JsonLines

/-- How a report is printed. -/
inductive Format where
  /-- For people. -/
  | text
  /-- As JSON on one line. -/
  | json
  /-- As indented JSON. -/
  | pretty
deriving DecidableEq, Repr, Inhabited

namespace Format

/-- The formats. -/
def all : List Format := [.text, .json, .pretty]

/-- The name of a format. -/
def name : Format → String
  | .text => "text"
  | .json => "json"
  | .pretty => "pretty"

/-- The format of a name. -/
def ofName? (name : String) : Option Format := all.find? (·.name = name)

end Format

/-- What is to be done with an input. -/
inductive Command where
  /-- Tell the type that covers all rows. -/
  | describe (input : String)
  /-- List the fields, at the end of a field path if one is given. -/
  | listFields (input : String) (field : Option String)
  /-- Count the rows. -/
  | countRows (input : String)
  /-- Print the values, of some rows and at the end of a field path if they are given. -/
  | showValues (input : String) (rows field : Option String)
  /-- Write the values to a columnar file. -/
  | exportTable (input output : String) (rows field : Option String) (compression : String)
deriving DecidableEq, Repr, Inhabited

namespace Command

/-- The file that a command reads. -/
def input : Command → String
  | .describe input => input
  | .listFields input _ => input
  | .countRows input => input
  | .showValues input _ _ => input
  | .exportTable input _ _ _ _ => input

/-- A text that may be left out, as a diagnostic shows it. -/
def shown (text : Option String) : String := Inspect.option (text.map Inspect.text)

/-- A command as a diagnostic shows it. -/
def diagnostic : Command → String
  | .describe input => Inspect.record "Schema" [("input", Inspect.path input)]
  | .listFields input field =>
    Inspect.record "Fields" [("input", Inspect.path input), ("field", shown field)]
  | .countRows input => Inspect.record "Count" [("input", Inspect.path input)]
  | .showValues input rows field =>
    Inspect.record "Show"
      [("input", Inspect.path input), ("rows", shown rows), ("field", shown field)]
  | .exportTable input output rows field compression =>
    Inspect.record "Export"
      [("input", Inspect.path input), ("output", Inspect.path output), ("rows", shown rows),
       ("field", shown field), ("compression", Inspect.text compression)]

end Command

/-- A command, the file of its settings, and how its report is printed. -/
structure Request where
  config : Option String := none
  format : Format := .text
  verbose : Bool := false
  command : Command
deriving DecidableEq, Repr, Inhabited

end JsonLines
