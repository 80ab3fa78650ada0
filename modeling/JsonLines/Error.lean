/-
JsonLines.Error — why an operation on a dataset fails.

Each constructor is a cause; `Error.message` words it. A row whose value merely cannot be converted
is no error.
-/
import JsonLines.Scan.ScanError

namespace JsonLines

/-- Why an operation fails. -/
inductive Error where
  /-- The text of a record could not be scanned. -/
  | malformedRecord (row : Nat) (cause : ScanError)
  /-- An index is not one of `1..=len`. -/
  | indexOutOfRange (index len : Nat)
  /-- There are more rows than the limit allows. -/
  | capacityExceeded (requested maximum : Nat)
  /-- A configuration file is there but cannot be read. -/
  | unreadableConfig (path reason : String)
  /-- Fields were asked for, of a dataset that is not made of records. -/
  | noFields (datatype : String)
  /-- No value has the field that a path names. -/
  | unknownField (path : String)
  /-- A row number is not written in digits, or does not fit. -/
  | badRowNumber (text : String)
  /-- A range of rows ends before it starts. -/
  | badRowRange (text : String)
  /-- A configuration that allows no rows. -/
  | zeroRowLimit
  /-- A configuration that allows no nesting. -/
  | zeroDepthLimit
  /-- A compression that is not known. -/
  | unknownCompression (name : String)
  /-- A configuration that is no YAML, or not of the right shape. -/
  | malformedYaml
  /-- A text that is no JSON, or not of the right shape. -/
  | malformedJson (fault : Json.LocatedFault)
  /-- A file without columns cannot be written. -/
  | noColumns
  /-- A file cannot be created. -/
  | uncreatableFile (path reason : String)
  /-- A file cannot be read. -/
  | unreadableFile (reason : String)
  /-- There is no such file. -/
  | fileNotFound (path : String)
  /-- A dataset could not be exported. -/
  | exportFailed (path : String) (cause : Error)
deriving DecidableEq, Repr

namespace Error

/-- The message of a setting that is out of range. -/
private def setting (name message : String) : String :=
  "Invalid config value for '" ++ name ++ "': " ++ message

/-- The text of an error. -/
def message : Error → String
  | .malformedRecord row cause =>
    "error parsing row " ++ toString row ++ " of JSON file: " ++ cause.message
  | .indexOutOfRange index len =>
    "invalid index: " ++ toString index ++ " (valid range is 1..=" ++ toString len ++ ")"
  | .capacityExceeded requested maximum =>
    "number of rows (" ++ toString requested ++ ") exceeds maximum (" ++ toString maximum ++ ")"
  | .unreadableConfig path reason =>
    "Configuration error: Failed to read config file '" ++ path ++ "': " ++ reason
  | .noFields datatype => "Configuration error: dataset of type " ++ datatype ++ " has no fields"
  | .unknownField path => "Configuration error: unknown field '" ++ path ++ "'"
  | .badRowNumber text => "Configuration error: invalid row number '" ++ text ++ "'"
  | .badRowRange text => "Configuration error: invalid row range '" ++ text ++ "'"
  | .zeroRowLimit => setting "limits.max_rows" "must be at least 1 when set"
  | .zeroDepthLimit => setting "limits.max_depth" "must be at least 1"
  | .unknownCompression name =>
    setting "compression"
      ("unknown compression '" ++ name ++ "' (expected none, snappy, zstd or gzip)")
  | .malformedYaml => "Failed to parse YAML"
  | .malformedJson fault => "Failed to parse JSON: " ++ fault.message
  | .noColumns => "Output error: dataset has no columns to write"
  | .uncreatableFile path reason =>
    "Output error: Failed to create file '" ++ path ++ "': " ++ reason
  | .unreadableFile reason => "IO error: " ++ reason
  | .fileNotFound path => "File not found: " ++ path
  | .exportFailed path cause => "Failed to export to '" ++ path ++ "': " ++ cause.message

/-- The text of the error below this one, if it was passed on with a text of its own. -/
def source? : Error → Option String
  | .malformedJson fault => some fault.message
  | .unreadableFile reason => some reason
  | _ => none

/-- The row that an error is about. -/
def row? : Error → Option Nat
  | .malformedRecord row _ => some row
  | _ => none

/-- The error comes from a limit and not from bad input. -/
def isResourceExhausted : Error → Bool
  | .capacityExceeded _ _ => true
  | _ => false

end Error

end JsonLines
