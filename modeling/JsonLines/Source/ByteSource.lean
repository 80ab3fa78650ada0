/-
JsonLines.Source.ByteSource — the bytes that datasets are read from, and their lines.

A source holds its bytes, the path it was opened from, and whether the file was mapped. `slice`
gives the bytes of a span and no bytes at all for a span that does not fit. `records` gives the
span of each line: a line ends before its line feed, and one carriage return at its end is not
part of it. A line feed at the very end opens no further line.
-/
import JsonLines.Source.Span

namespace JsonLines

/-- The bytes of a JSON-lines text, read-only and shared by every dataset over them. -/
structure ByteSource where
  bytes : ByteArray
  path : Option String := none
  mapped : Bool := false

namespace ByteSource

/-- A source over bytes in memory. -/
def ofBytes (bytes : ByteArray) : ByteSource := { bytes }

/-- A source over the UTF-8 bytes of a text. -/
def ofString (text : String) : ByteSource := { bytes := text.toUTF8 }

/-- A source over a file that is mapped; an empty file cannot be mapped and is held in memory. -/
def ofMappedFile (path : String) (bytes : ByteArray) : ByteSource :=
  { bytes, path := some path, mapped := bytes.size != 0 }

/-- A source over a file that is read as a whole. -/
def ofReadFile (path : String) (bytes : ByteArray) : ByteSource :=
  { bytes, path := some path }

/-- The number of bytes. -/
def size (source : ByteSource) : Nat := source.bytes.size

/-- The source has no bytes. -/
def isEmpty (source : ByteSource) : Bool := source.size == 0

/-- The bytes as a list: what every statement about a source is about. -/
def toList (source : ByteSource) : List UInt8 := source.bytes.data.toList

/-- The bytes that a span covers, none when it does not fit. -/
def slice (source : ByteSource) (s : Span) : ByteArray :=
  if s.fits source.size then source.bytes.extract s.offset s.stop else ByteArray.empty

end ByteSource

namespace Lines

/-- The byte that ends a line. -/
def lineFeed : UInt8 := 10

/-- The byte that a line may carry before its line feed. -/
def carriageReturn : UInt8 := 13

/-- Space, tab, line feed, form feed and carriage return: the bytes a blank line is made of. -/
def isBlankByte (b : UInt8) : Bool := b == 32 || b == 9 || b == 10 || b == 12 || b == 13

/-- The lines of `bytes` without their line feeds, each with the offset of its first byte when
the first byte of all is at `start`. -/
def split (start : Nat) (bytes : List UInt8) : List (Nat × List UInt8) :=
  match bytes with
  | [] => []
  | b :: rest =>
    let line := (b :: rest).takeWhile (· != lineFeed)
    (start, line) :: split (start + line.length + 1) ((b :: rest).drop (line.length + 1))
termination_by bytes.length
decreasing_by simp only [List.length_drop, List.length_cons]; omega

/-- A line less one carriage return at its end. -/
def content (line : List UInt8) : List UInt8 :=
  if line.getLast? = some carriageReturn then line.dropLast else line

/-- A record made of blank bytes alone. -/
def isBlank (record : List UInt8) : Bool := record.all isBlankByte

end Lines

namespace ByteSource

/-- The text of each line with its offset, in order; without the blank ones if asked so. -/
def lines (source : ByteSource) (skipBlank : Bool) : List (Nat × List UInt8) :=
  ((Lines.split 0 source.toList).map fun (start, line) => (start, Lines.content line)).filter
    fun (_, record) => !(skipBlank && Lines.isBlank record)

/-- The span of each record. -/
def records (source : ByteSource) (skipBlank : Bool) : List Span :=
  (source.lines skipBlank).map fun (start, record) => ⟨start, record.length⟩

end ByteSource

end JsonLines
