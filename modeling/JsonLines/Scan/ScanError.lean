/-
JsonLines.Scan.ScanError — why a text could not be scanned.
-/
import JsonLines.Json.Fault
import JsonLines.Source.Span

namespace JsonLines

/-- Why a text could not be scanned. -/
inductive ScanError where
  | outOfBounds (span : Span)
  | invalidUtf8 (validBytes : Nat)
  | malformed (fault : Json.LocatedFault)
  | duplicateField (name : String)
  | tooDeep (limit : Nat)
deriving DecidableEq, Repr

/-- The text of a scan error. -/
def ScanError.message : ScanError → String
  | .outOfBounds span =>
    "span Span \x7b offset: " ++ toString span.offset ++ ", len: " ++ toString span.len
      ++ " \x7d is outside the source"
  | .invalidUtf8 n => "invalid UTF-8 after " ++ toString n ++ " bytes"
  | .malformed fault => fault.message
  | .duplicateField name => "duplicate field \"" ++ name ++ "\""
  | .tooDeep limit => "value nested deeper than " ++ toString limit ++ " levels"

end JsonLines
