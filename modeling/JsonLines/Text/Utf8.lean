/-
JsonLines.Text.Utf8 — reading bytes as characters.

`Utf8.decode` reads a byte array as UTF-8. Text that is not UTF-8 is refused with the number of
bytes before the first one that belongs to no character: the length of the longest valid part at
the start. `Utf8.width` counts the bytes of characters, the inverse of reading in what positions
need.
-/
namespace JsonLines.Utf8

/-- The characters from the byte at `i` on, or the position where no character starts. -/
def decodeFrom (bytes : ByteArray) (i : Nat) : Except Nat (List Char) :=
  if i < bytes.size then
    match bytes.utf8DecodeChar? i with
    | none => .error i
    | some c =>
      match decodeFrom bytes (i + c.utf8Size) with
      | .error e => .error e
      | .ok cs => .ok (c :: cs)
  else .ok []
termination_by bytes.size - i
decreasing_by have := c.utf8Size_pos; omega

/-- The characters of a byte array, or the number of valid bytes before the first fault. -/
def decode (bytes : ByteArray) : Except Nat (List Char) := decodeFrom bytes 0

/-- The text of a byte array, if it is UTF-8. -/
def toString? (bytes : ByteArray) : Option String :=
  match decode bytes with
  | .error _ => none
  | .ok cs => some (String.ofList cs)

/-- The number of bytes that characters take. -/
def width (cs : List Char) : Nat := cs.foldr (fun c n => c.utf8Size + n) 0

end JsonLines.Utf8
