/-
JsonLines.Json.Literal — string literals: skipping them, reading them and writing them.

A literal stands between quotes. `skim` passes over one and keeps its characters as they are
written: it checks the form of each escape, but not that surrogates come in pairs. `read` decodes:
a low surrogate needs a high one before it, and a high one needs an escaped low one after it.
`quote` writes a text as a literal: quotes, backslashes and control characters are escaped,
everything else stands for itself.
-/
import JsonLines.Json.Cursor

namespace JsonLines.Json.Literal

/-- The value of a hexadecimal digit of either case. -/
def hexValue? (ch : Char) : Option Nat :=
  if '0' ≤ ch ∧ ch ≤ '9' then some (ch.toNat - 48)
  else if 'a' ≤ ch ∧ ch ≤ 'f' then some (ch.toNat - 87)
  else if 'A' ≤ ch ∧ ch ≤ 'F' then some (ch.toNat - 55)
  else none

/-- The number that four hexadecimal digits write. -/
def hexQuad? (a b c d : Char) : Option Nat :=
  match hexValue? a, hexValue? b, hexValue? c, hexValue? d with
  | some a, some b, some c, some d => some (((a * 16 + b) * 16 + c) * 16 + d)
  | _, _, _, _ => none

/-- The character that a backslash and one more character stand for. -/
def escaped? (ch : Char) : Option Char :=
  match ch with
  | '"' => some '"'
  | '\\' => some '\\'
  | '/' => some '/'
  | 'b' => some '\x08'
  | 'f' => some '\x0c'
  | 'n' => some '\n'
  | 'r' => some '\r'
  | 't' => some '\t'
  | _ => none

/-- A character that may not stand in a literal unescaped. -/
def isControl (ch : Char) : Bool := ch.toNat < 32

/-- The fault of an escape `\u` at `position` that fewer than four characters follow: text with
fewer than four bytes left is read to its end. -/
def shortEscape (position : Nat) (rest : List Char) : Fault :=
  if Utf8.width rest < 4 then ⟨.eofString, position + Utf8.width rest⟩
  else ⟨.invalidEscape, position + 4⟩

/-- The written characters of a literal up to its closing quote, and the cursor past the quote.
The opening quote is already read. -/
def skim (position : Nat) : List Char → Except Fault (List Char × Cursor)
  | [] => .error ⟨.eofString, position⟩
  | '"' :: rest => .ok ([], ⟨position + 1, rest⟩)
  | '\\' :: rest =>
    match rest with
    | [] => .error ⟨.eofString, position + 1⟩
    | 'u' :: rest =>
      match rest with
      | a :: b :: c :: d :: rest =>
        match hexQuad? a b c d with
        | none => .error ⟨.invalidEscape, position + 6⟩
        | some _ =>
          match skim (position + 6) rest with
          | .error e => .error e
          | .ok (raw, next) => .ok ('\\' :: 'u' :: a :: b :: c :: d :: raw, next)
      | rest => .error (shortEscape (position + 2) rest)
    | ch :: rest =>
      match escaped? ch with
      | none => .error ⟨.invalidEscape, position + 2⟩
      | some _ =>
        match skim (position + 2) rest with
        | .error e => .error e
        | .ok (raw, next) => .ok ('\\' :: ch :: raw, next)
  | ch :: rest =>
    if isControl ch then .error ⟨.controlCharacter, position⟩
    else
      match skim (position + ch.utf8Size) rest with
      | .error e => .error e
      | .ok (raw, next) => .ok (ch :: raw, next)

/-- A surrogate that must be the first of a pair. -/
def isHighSurrogate (n : Nat) : Bool := 0xD800 ≤ n && n ≤ 0xDBFF

/-- A surrogate that must be the second of a pair. -/
def isLowSurrogate (n : Nat) : Bool := 0xDC00 ≤ n && n ≤ 0xDFFF

/-- The character that a pair of surrogates stands for. -/
def pairChar (high low : Nat) : Char :=
  Char.ofNat (0x10000 + (high - 0xD800) * 0x400 + (low - 0xDC00))

/-- The fault of a high surrogate that ends before `position` when no whole escape follows it. -/
def unpaired (position : Nat) : List Char → Fault
  | [] => ⟨.eofString, position⟩
  | ['\\'] => ⟨.eofString, position + 1⟩
  | '\\' :: 'u' :: rest => shortEscape (position + 2) rest
  | '\\' :: _ => ⟨.endOfHexEscape, position + 2⟩
  | _ => ⟨.endOfHexEscape, position + 1⟩

/-- The decoded characters of a literal up to its closing quote, and the cursor past the quote.
The opening quote is already read. -/
def read (position : Nat) : List Char → Except Fault (List Char × Cursor)
  | [] => .error ⟨.eofString, position⟩
  | '"' :: rest => .ok ([], ⟨position + 1, rest⟩)
  | '\\' :: rest =>
    match rest with
    | [] => .error ⟨.eofString, position + 1⟩
    | 'u' :: rest =>
      match rest with
      | a :: b :: c :: d :: rest =>
        match hexQuad? a b c d with
        | none => .error ⟨.invalidEscape, position + 6⟩
        | some n =>
          if isLowSurrogate n then .error ⟨.loneSurrogate, position + 6⟩
          else if isHighSurrogate n then
            match rest with
            | '\\' :: 'u' :: a :: b :: c :: d :: rest =>
              match hexQuad? a b c d with
              | none => .error ⟨.invalidEscape, position + 12⟩
              | some low =>
                if isLowSurrogate low then
                  match read (position + 12) rest with
                  | .error e => .error e
                  | .ok (text, next) => .ok (pairChar n low :: text, next)
                else .error ⟨.loneSurrogate, position + 12⟩
            | rest => .error (unpaired (position + 6) rest)
          else
            match read (position + 6) rest with
            | .error e => .error e
            | .ok (text, next) => .ok (Char.ofNat n :: text, next)
      | rest => .error (shortEscape (position + 2) rest)
    | ch :: rest =>
      match escaped? ch with
      | none => .error ⟨.invalidEscape, position + 2⟩
      | some decoded =>
        match read (position + 2) rest with
        | .error e => .error e
        | .ok (text, next) => .ok (decoded :: text, next)
  | ch :: rest =>
    if isControl ch then .error ⟨.controlCharacter, position + 1⟩
    else
      match read (position + ch.utf8Size) rest with
      | .error e => .error e
      | .ok (text, next) => .ok (ch :: text, next)

/-- The text of a whole literal, quotes included; none if it is no literal or does not decode. -/
def decode? : List Char → Option (List Char)
  | '"' :: rest =>
    match read 1 rest with
    | .ok (text, ⟨_, []⟩) => some text
    | _ => none
  | _ => none

/-- A hexadecimal digit in lower case. -/
def hexDigit (n : Nat) : Char := if n < 10 then Char.ofNat (48 + n) else Char.ofNat (87 + n)

/-- How a character is written between quotes. -/
def escape (ch : Char) : List Char :=
  match ch with
  | '"' => ['\\', '"']
  | '\\' => ['\\', '\\']
  | '\x08' => ['\\', 'b']
  | '\x0c' => ['\\', 'f']
  | '\n' => ['\\', 'n']
  | '\r' => ['\\', 'r']
  | '\t' => ['\\', 't']
  | ch =>
    if isControl ch then ['\\', 'u', '0', '0', hexDigit (ch.toNat / 16), hexDigit (ch.toNat % 16)]
    else [ch]

/-- A text as a literal, quotes included. -/
def quoteChars (text : List Char) : List Char := '"' :: (text.flatMap escape ++ ['"'])

/-- A text as a literal, quotes included. -/
def quote (text : String) : String := String.ofList (quoteChars text.toList)

end JsonLines.Json.Literal
