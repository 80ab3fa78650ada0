/-
JsonLines.Json.Cursor — a place in a text that is being read.

A cursor holds the characters still to be read and the position of the first of them, in bytes. A
fault found between characters is reported at the cursor itself (`here`); one found by looking at
the next character without taking it is reported one byte on (`peek`), or at the end of the text
when nothing is left.
-/
import JsonLines.Json.Fault
import JsonLines.Text.Utf8
import JsonLines.Source.Span

namespace JsonLines.Json

/-- The characters still to be read, and the position of the first of them. -/
structure Cursor where
  position : Nat
  rest : List Char
deriving DecidableEq, Repr

namespace Cursor

/-- A fault at the cursor. -/
def here (c : Cursor) (cause : Cause) : Fault := ⟨cause, c.position⟩

/-- A fault in the next byte, which is not yet taken. -/
def peek (c : Cursor) (cause : Cause) : Fault :=
  match c.rest with
  | [] => ⟨cause, c.position⟩
  | _ :: _ => ⟨cause, c.position + 1⟩

/-- The cursor past the next character, which is one byte long. -/
def skip (c : Cursor) : Cursor := ⟨c.position + 1, c.rest.tail⟩

/-- Space, tab, line feed and carriage return: what may stand between the parts of a text. -/
def isBlank (ch : Char) : Bool := ch == ' ' || ch == '\t' || ch == '\n' || ch == '\r'

/-- The cursor past the blanks that come next. -/
def skipBlanks (c : Cursor) : Cursor :=
  ⟨c.position + (c.rest.takeWhile isBlank).length, c.rest.dropWhile isBlank⟩

/-- The span from one cursor to a later one. -/
def spanTo (c d : Cursor) : Span := ⟨c.position, d.position - c.position⟩

end Cursor

end JsonLines.Json
