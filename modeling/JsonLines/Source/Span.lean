/-
JsonLines.Source.Span — a range of bytes inside a source.

A span is two 64-bit words, the offset of its first byte and its length. The offset one past the
last byte is computed modulo 2^64, as words are: a span whose end does not fit in a word ends
before it starts, and `Span.fits` therefore refuses it for a source of any size.
-/
import JsonLines.Number.Word

namespace JsonLines

/-- A range of `len` bytes from `offset` on. -/
structure Span where
  offset : Nat
  len : Nat
deriving DecidableEq, Repr, Inhabited

namespace Span

/-- The span of a value that has no text. -/
def empty : Span := ⟨0, 0⟩

/-- The span covers no bytes. -/
def isEmpty (s : Span) : Bool := s.len == 0

/-- The offset one past the last byte, a 64-bit word. -/
def stop (s : Span) : Nat := (s.offset + s.len) % Word.modulus

/-- The span is a range of a source of `size` bytes. -/
def fits (s : Span) (size : Nat) : Bool := s.offset ≤ s.stop && s.stop ≤ size

end Span

end JsonLines
