/-
JsonLines.Text.Blank — which characters are white space, and texts without it at their ends.
-/
namespace JsonLines.Blank

/-- The code points beyond ASCII that are white space. -/
def wide : List Nat :=
  [0x85, 0xA0, 0x1680, 0x2000, 0x2001, 0x2002, 0x2003, 0x2004, 0x2005, 0x2006, 0x2007, 0x2008,
   0x2009, 0x200A, 0x2028, 0x2029, 0x202F, 0x205F, 0x3000]

/-- The character is white space. -/
def isBlank (c : Char) : Bool :=
  (9 ≤ c.toNat && c.toNat ≤ 13) || c == ' ' || wide.contains c.toNat

/-- A text without the white space at its start and its end. -/
def trim (cs : List Char) : List Char :=
  ((cs.dropWhile isBlank).reverse.dropWhile isBlank).reverse

end JsonLines.Blank
