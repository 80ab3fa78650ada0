/-
JsonLines.Text.Inspect — texts and records as a diagnostic shows them.

A text stands between quotes; what does not show on its own is written as an escape. A record is
its name and its fields between braces.
-/
import JsonLines.Text.Printable

namespace JsonLines.Inspect

/-- The hexadecimal digits of a code point between braces, after a backslash and `u`. -/
def codeEscape (c : Char) : List Char :=
  '\\' :: 'u' :: '\x7b' :: (Nat.toDigits 16 c.toNat ++ ['\x7d'])

/-- How a character is shown inside quotes. -/
def escape (c : Char) : List Char :=
  match c with
  | '\x00' => ['\\', '0']
  | '\t' => ['\\', 't']
  | '\r' => ['\\', 'r']
  | '\n' => ['\\', 'n']
  | '\\' => ['\\', '\\']
  | '"' => ['\\', '"']
  | c => if Printable.isPrintable c then [c] else codeEscape c

/-- A text between quotes. -/
def text (s : String) : String :=
  String.ofList ('"' :: (s.toList.flatMap escape ++ ['"']))

/-- A path between quotes; in paths an apostrophe is escaped too. -/
def path (s : String) : String :=
  let escapePath (c : Char) : List Char := if c = '\'' then ['\\', '\''] else escape c
  String.ofList ('"' :: (s.toList.flatMap escapePath ++ ['"']))

/-- A value that may be missing. -/
def option (shown : Option String) : String :=
  match shown with
  | none => "None"
  | some s => "Some(" ++ s ++ ")"

/-- Some values between brackets. -/
def list (shown : List String) : String := "[" ++ String.intercalate ", " shown ++ "]"

/-- A record with named fields, at least one. -/
def record (name : String) (fields : List (String × String)) : String :=
  name ++ " \x7b "
    ++ String.intercalate ", " (fields.map fun (field, shown) => field ++ ": " ++ shown) ++ " \x7d"

end JsonLines.Inspect
