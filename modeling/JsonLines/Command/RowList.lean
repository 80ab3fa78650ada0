/-
JsonLines.Command.RowList — row numbers and ranges of them, as a command line writes them.

The parts of a list stand between commas; blanks around a part do not count, and a blank part is
passed over. A part with a minus sign is a range, whose ends stand before and after the first minus
sign. Row numbers count from one. The first bad part decides the error, and no range is expanded
before both its ends are known to be rows.
-/
import JsonLines.Error
import JsonLines.Json.Numeral
import JsonLines.Number.Word
import JsonLines.Source.Files
import JsonLines.Text.Blank

namespace JsonLines.RowList

/-- The text less one plus sign at its start. -/
def withoutPlus : List Char → List Char
  | '+' :: digits => digits
  | digits => digits

/-- The number that a text writes: decimal digits after an optional plus sign, blanks around them
not counted, within 64 bits. -/
def readIndex (text : List Char) : Except Error Nat :=
  let digits := withoutPlus (Blank.trim text)
  if !digits.isEmpty && digits.all Char.isDigit && Numeral.ofDigits digits < Word.modulus then
    .ok (Numeral.ofDigits digits)
  else .error (.badRowNumber (String.ofList text))

/-- The number is that of one of `rowCount` rows. -/
def checkIndex (rowCount index : Nat) : Except Error Unit :=
  if index = 0 || rowCount < index then .error (.indexOutOfRange index rowCount) else .ok ()

/-- The numbers from `start` to `stop`, both ends included. -/
def range (start stop : Nat) : List Nat := List.range' start (stop + 1 - start)

/-- The ends of a range, before and after the first minus sign; none if there is no minus sign. -/
def ends? (part : List Char) : Option (List Char × List Char) :=
  match part.dropWhile (· != '-') with
  | [] => none
  | _ :: stop => some (part.takeWhile (· != '-'), stop)

/-- The rows of a single number. -/
def readSingle (rowCount : Nat) (part : List Char) : Except Error (List Nat) :=
  match readIndex part with
  | .error e => .error e
  | .ok index =>
    match checkIndex rowCount index with
    | .error e => .error e
    | .ok () => .ok [index]

/-- The rows of a range: both ends are read, then put in order, then checked. -/
def readRange (rowCount : Nat) (part first last : List Char) : Except Error (List Nat) :=
  match readIndex first with
  | .error e => .error e
  | .ok start =>
    match readIndex last with
    | .error e => .error e
    | .ok stop =>
      if stop < start then .error (.badRowRange (String.ofList part))
      else
        match checkIndex rowCount start with
        | .error e => .error e
        | .ok () =>
          match checkIndex rowCount stop with
          | .error e => .error e
          | .ok () => .ok (range start stop)

/-- The rows of one part. -/
def readPart (rowCount : Nat) (part : List Char) : Except Error (List Nat) :=
  match ends? part with
  | none => readSingle rowCount part
  | some (first, last) => readRange rowCount part first last

/-- The rows of some parts, in order. -/
def readParts (rowCount : Nat) : List (List Char) → Except Error (List Nat)
  | [] => .ok []
  | part :: parts =>
    match readPart rowCount part with
    | .error e => .error e
    | .ok rows =>
      match readParts rowCount parts with
      | .error e => .error e
      | .ok more => .ok (rows ++ more)

/-- The parts of a list. -/
def parts (list : List Char) : List (List Char) :=
  ((Files.splitOn ',' list).map Blank.trim).filter (· != [])

/-- The rows of a list, of a dataset that has `rowCount` rows. -/
def parse (rowCount : Nat) (list : String) : Except Error (List Nat) :=
  readParts rowCount (parts list.toList)

end JsonLines.RowList
