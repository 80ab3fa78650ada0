/-
JsonLines.Yaml.Node — YAML documents of mappings, sequences and scalars.

The reader knows block and flow collections, plain and quoted scalars, comments and document
markers; it does not know tags, anchors and block scalars. A text that is not one document of this
kind has no node. Structure in blocks is by columns: a block inside another one starts further to
the right, but for a sequence that is the value of a mapping, which may start in its column.
-/
namespace JsonLines.Yaml

/-- A node of a document. A scalar is plain or quoted; a missing one is plain and empty. -/
inductive Node where
  | scalar (plain : Bool) (text : List Char)
  | sequence (items : List Node)
  | mapping (members : List (Node × Node))
deriving Repr, Inhabited

/-- A place in a text whose lines end in line feeds. -/
structure Place where
  column : Nat
  rest : List Char
deriving Repr, Inhabited

namespace Place

/-- The place `n` characters on in the same line. -/
def advance (p : Place) (n : Nat) : Place := ⟨p.column + n, p.rest.drop n⟩

/-- The place past characters of the same line. -/
def skipWhile (p : Place) (test : Char → Bool) : Place := p.advance (p.rest.takeWhile test).length

/-- Nothing, a blank or a line feed comes next. -/
def endsWord : List Char → Bool
  | [] => true
  | c :: _ => c == ' ' || c == '\t' || c == '\n'

/-- A document marker comes next. -/
def atMarker (p : Place) : Bool :=
  p.column == 0 &&
    match p.rest with
    | '-' :: '-' :: '-' :: rest => endsWord rest
    | '.' :: '.' :: '.' :: rest => endsWord rest
    | _ => false

/-- No content comes next. -/
def isEnd (p : Place) : Bool := p.rest.isEmpty || p.atMarker

/-- A dash that starts an item comes next. -/
def atDash (p : Place) : Bool :=
  match p.rest with
  | '-' :: rest => !p.atMarker && endsWord rest
  | _ => false

/-- The place past spaces and tabs. -/
def skipBlanks (p : Place) : Place := p.skipWhile fun c => c == ' ' || c == '\t'

/-- The place past the comment that comes next, if one does. -/
def skipComment (p : Place) : Place :=
  match p.rest with
  | '#' :: _ => p.skipWhile (· != '\n')
  | _ => p

/-- The first content of the lines from the start of a line on; tabs do not indent it. -/
def toContent : Nat → Place → Option Place
  | 0, _ => none
  | room + 1, p =>
    let p := (p.skipWhile (· == ' ')).skipComment
    match p.rest with
    | '\n' :: rest => toContent room ⟨0, rest⟩
    | '\t' :: _ => none
    | _ => some p

/-- The first content of the lines that follow, when nothing else comes in this one. -/
def endLine (p : Place) : Option Place :=
  let p := p.skipBlanks.skipComment
  match p.rest with
  | [] => some p
  | '\n' :: rest => toContent (rest.length + 1) ⟨0, rest⟩
  | _ => none

/-- The next content inside brackets, where lines do not matter. -/
def inBrackets : Nat → Place → Place
  | 0, p => p
  | room + 1, p =>
    let p := p.skipBlanks.skipComment
    match p.rest with
    | '\n' :: rest => inBrackets room ⟨0, rest⟩
    | _ => p

/-- The next content inside brackets. -/
def skipFlow (p : Place) : Place := p.inBrackets (p.rest.length + 1)

end Place

/-! ## Scalars -/

/-- The characters that end a plain scalar inside brackets. -/
def isFlowIndicator (c : Char) : Bool :=
  c == ',' || c == '[' || c == ']' || c == '\x7b' || c == '\x7d'

/-- A plain scalar can start here. -/
def startsPlain (flow : Bool) : List Char → Bool
  | [] => false
  | c :: rest =>
    if c == '-' || c == '?' || c == ':' then
      !(Place.endsWord rest || (flow && (rest.head?.map isFlowIndicator).getD false))
    else
      !(c == ',' || c == '[' || c == ']' || c == '\x7b' || c == '\x7d' || c == '#' || c == '&'
        || c == '*' || c == '!' || c == '|' || c == '>' || c == '\'' || c == '"' || c == '%'
        || c == '@' || c == '\x60' || c == ' ' || c == '\t' || c == '\n')

/-- The part of a plain scalar in this line; `blank` says that a blank was just passed. Inside
brackets a colon before an indicator is refused. -/
def plainLine (flow blank : Bool) : List Char → Option (List Char)
  | [] => some []
  | c :: rest =>
    if c == '\n' || (c == '#' && blank) || (c == ':' && Place.endsWord rest)
        || (flow && isFlowIndicator c) then some []
    else if flow && c == ':' && (rest.head?.map isFlowIndicator).getD false then none
    else (plainLine flow (c == ' ' || c == '\t') rest).map (c :: ·)

/-- A text without blanks at its end. -/
def trimEnd (cs : List Char) : List Char :=
  (cs.reverse.dropWhile fun c => c == ' ' || c == '\t').reverse

/-- The part of a plain scalar in this line, without the blanks after it. -/
def readPlainLine (flow : Bool) (p : Place) : Option (List Char × Place) := do
  let line := trimEnd (← plainLine flow false p.rest)
  return (line, p.advance line.length)

/-- The start of the next line that continues a plain scalar: content further right than `parent`
that is no comment and no marker. -/
def continuation (flow : Bool) (parent : Int) (p : Place) : Option Place :=
  let p := p.skipBlanks
  match p.rest with
  | '\n' :: _ =>
    let lines := p.rest.dropWhile fun c => c == '\n'
    let indent := (lines.takeWhile (· == ' ')).length
    let q : Place := ⟨indent, lines.drop indent⟩
    match q.rest with
    | [] => none
    | c :: _ =>
      if c == '#' || c == '\n' || q.atMarker then none
      else if flow then
        if isFlowIndicator c || (c == ':' && Place.endsWord q.rest.tail) then none else some q
      else if parent < indent then some q
      else none
  | _ => none

/-- The further lines of a plain scalar, joined by spaces. -/
def readPlainRest (flow : Bool) (parent : Int) :
    Nat → List Char → Place → Option (List Char × Place)
  | 0, _, _ => none
  | room + 1, text, p =>
    match continuation flow parent p with
    | none => some (text, p)
    | some q => do
      let (line, q) ← readPlainLine flow q
      if line.isEmpty then some (text, p)
      else readPlainRest flow parent room (text ++ ' ' :: line) q

/-- A single-quoted scalar past its opening quote: a quote is written twice. -/
def readSingle : List Char → Option (List Char × List Char)
  | [] => none
  | '\'' :: rest =>
    match rest with
    | '\'' :: rest => (readSingle rest).map fun (text, after) => ('\'' :: text, after)
    | rest => some ([], rest)
  | c :: rest => (readSingle rest).map fun (text, after) => (c :: text, after)

/-- The value of a hexadecimal digit. -/
def hexDigit? (c : Char) : Option Nat :=
  if c.isDigit then some (c.toNat - 48)
  else if 'a' ≤ c ∧ c ≤ 'f' then some (c.toNat - 87)
  else if 'A' ≤ c ∧ c ≤ 'F' then some (c.toNat - 55)
  else none

/-- The character that `count` hexadecimal digits write. -/
def hexChar? (count : Nat) (cs : List Char) : Option Char := do
  let digits := cs.take count
  if digits.length < count then none
  let n ← digits.foldlM (fun n c => (hexDigit? c).map (n * 16 + ·)) 0
  if n.isValidChar then some (Char.ofNat n) else none

/-- The characters that a backslash and one more character stand for; a line feed stands for
none. -/
def escaped? (c : Char) : Option (List Char) :=
  match c with
  | '0' => some ['\x00']
  | 'a' => some ['\x07']
  | 'b' => some ['\x08']
  | 't' => some ['\t']
  | '\t' => some ['\t']
  | 'n' => some ['\n']
  | 'v' => some ['\x0b']
  | 'f' => some ['\x0c']
  | 'r' => some ['\r']
  | 'e' => some ['\x1b']
  | ' ' => some [' ']
  | '"' => some ['"']
  | '/' => some ['/']
  | '\\' => some ['\\']
  | 'N' => some ['\u0085']
  | '_' => some ['\u00a0']
  | 'L' => some ['\u2028']
  | 'P' => some ['\u2029']
  | '\n' => some []
  | _ => none

/-- The number of hexadecimal digits after an escaping letter. -/
def hexLength? (c : Char) : Option Nat :=
  match c with
  | 'x' => some 2
  | 'u' => some 4
  | 'U' => some 8
  | _ => none

/-- A double-quoted scalar past its opening quote. The first argument bounds its length. -/
def readDouble : Nat → List Char → Option (List Char × List Char)
  | 0, _ => none
  | _ + 1, [] => none
  | _ + 1, '"' :: rest => some ([], rest)
  | room + 1, '\\' :: c :: rest =>
    match hexLength? c with
    | some count => do
      let c ← hexChar? count rest
      let (text, after) ← readDouble room (rest.drop count)
      return (c :: text, after)
    | none => do
      let cs ← escaped? c
      let (text, after) ← readDouble room rest
      return (cs ++ text, after)
  | room + 1, c :: rest => do
    let (text, after) ← readDouble room rest
    return (c :: text, after)

/-- The lines of a quoted scalar joined by spaces. -/
def foldLines (cs : List Char) : List Char := cs.map fun c => if c == '\n' then ' ' else c

/-- The place before `after`, which is what is left of the text at `p`. -/
def placeAt (p : Place) (after : List Char) : Place :=
  let passed := p.rest.take (p.rest.length - after.length)
  let line := (passed.reverse.takeWhile (· != '\n')).length
  ⟨if passed.contains '\n' then line else p.column + line, after⟩

/-- A quoted scalar, if one comes next. -/
def readQuoted (p : Place) : Option (Node × Place) :=
  match p.rest with
  | '\'' :: rest => do
    let (text, after) ← readSingle rest
    return (.scalar false (foldLines text), placeAt p after)
  | '"' :: rest => do
    let (text, after) ← readDouble (rest.length + 1) rest
    return (.scalar false (foldLines text), placeAt p after)
  | _ => none

/-- A missing node. -/
def Node.empty : Node := .scalar true []

/-- A quote comes next. -/
def atQuote (p : Place) : Bool :=
  match p.rest with
  | '\'' :: _ => true
  | '"' :: _ => true
  | _ => false

/-! ## Flow collections -/

mutual

/-- A node inside brackets. The first argument bounds the calls that are still allowed, here and
below; the length of the text is enough. -/
def readFlow : Nat → Place → Option (Node × Place)
  | 0, _ => none
  | room + 1, p =>
    match p.rest with
    | '\x7b' :: _ => do
      let (members, p) ← readFlowMembers room (p.advance 1).skipFlow
      return (.mapping members, p)
    | '[' :: _ => do
      let (items, p) ← readFlowItems room (p.advance 1).skipFlow
      return (.sequence items, p)
    | _ =>
      if atQuote p then readQuoted p
      else if startsPlain true p.rest then do
        let (text, p) ← readPlainLine true p
        let (text, p) ← readPlainRest true 0 (p.rest.length + 1) text p
        return (.scalar true text, p)
      else none

/-- The value after a colon inside brackets, empty when there is none. -/
def readFlowValue : Nat → Place → Option (Node × Place)
  | 0, _ => none
  | room + 1, p =>
    match p.rest with
    | ':' :: _ =>
      let p := (p.advance 1).skipFlow
      match p.rest with
      | ',' :: _ => some (.empty, p)
      | '\x7d' :: _ => some (.empty, p)
      | ']' :: _ => some (.empty, p)
      | _ => readFlow room p
    | _ => some (.empty, p)

/-- The members of a mapping in braces, and the closing brace. -/
def readFlowMembers : Nat → Place → Option (List (Node × Node) × Place)
  | 0, _ => none
  | room + 1, p =>
    match p.rest with
    | '\x7d' :: _ => some ([], p.advance 1)
    | _ => do
      let (key, p) ← readFlow room p
      let (value, p) ← readFlowValue room p.skipFlow
      let p := p.skipFlow
      match p.rest with
      | ',' :: _ =>
        let (members, p) ← readFlowMembers room (p.advance 1).skipFlow
        return ((key, value) :: members, p)
      | '\x7d' :: _ => return ([(key, value)], p.advance 1)
      | _ => none

/-- The items of a sequence in brackets, and the closing bracket. -/
def readFlowItems : Nat → Place → Option (List Node × Place)
  | 0, _ => none
  | room + 1, p =>
    match p.rest with
    | ']' :: _ => some ([], p.advance 1)
    | _ => do
      let (item, p) ← readFlow room p
      let p := p.skipFlow
      let (item, p) ← match p.rest with
        | ':' :: _ => do
          let (value, p) ← readFlowValue room p
          pure (.mapping [(item, value)], p.skipFlow)
        | _ => pure (item, p)
      match p.rest with
      | ',' :: _ =>
        let (items, p) ← readFlowItems room (p.advance 1).skipFlow
        return (item :: items, p)
      | ']' :: _ => return ([item], p.advance 1)
      | _ => none

end

/-! ## Blocks -/

/-- A node that starts within a line and is no block. Its further lines stand to the right of
`parent`. -/
def readInline (parent : Int) (p : Place) : Option (Node × Place) :=
  let room := p.rest.length + 1
  match p.rest with
  | '\x7b' :: _ => readFlow (2 * room) p
  | '[' :: _ => readFlow (2 * room) p
  | _ =>
    if atQuote p then readQuoted p
    else if startsPlain false p.rest then do
      let (text, p) ← readPlainLine false p
      let (text, p) ← readPlainRest false parent room text p
      return (.scalar true text, p)
    else none

/-- The key of a block mapping and the place past its colon, if one comes next: a scalar within a
line. -/
def readKey? (p : Place) : Option (Node × Place) := do
  let (key, q) ←
    if atQuote p then readQuoted p
    else if startsPlain false p.rest then do
      let (text, q) ← readPlainLine false p
      pure (.scalar true text, q)
    else none
  let line := p.rest.take (p.rest.length - q.rest.length)
  let q := q.skipBlanks
  match q.rest with
  | ':' :: rest =>
    if Place.endsWord rest && !line.contains '\n' then some (key, q.advance 1) else none
  | _ => none

mutual

/-- The block at a content place that stands to the right of `parent`, and the content after it;
an empty node when the content is no part of the block. -/
def readBlock : Nat → Int → Place → Option (Node × Place)
  | 0, _, _ => none
  | room + 1, parent, p =>
    if p.isEnd || (p.column : Int) ≤ parent then some (.empty, p)
    else if p.atDash then do
      let (items, p) ← readItems room p.column p
      return (.sequence items, p)
    else if (readKey? p).isSome then do
      let (members, p) ← readMembers room p.column p
      return (.mapping members, p)
    else do
      let (node, p) ← readInline parent p
      return (node, ← p.endLine)

/-- The items of a block sequence in a column. -/
def readItems : Nat → Nat → Place → Option (List Node × Place)
  | 0, _, _ => none
  | room + 1, column, p => do
    let q := (p.advance 1).skipBlanks.skipComment
    let (item, q) ← match q.rest with
      | [] => pure (.empty, q)
      | '\n' :: _ => do readBlock room column (← q.endLine)
      | _ => readBlock room column q
    if q.isEnd || q.column < column then return ([item], q)
    else if q.column = column && q.atDash then
      let (items, q) ← readItems room column q
      return (item :: items, q)
    else if q.column = column then return ([item], q)
    else none

/-- The members of a block mapping in a column. -/
def readMembers : Nat → Nat → Place → Option (List (Node × Node) × Place)
  | 0, _, _ => none
  | room + 1, column, p => do
    let (key, q) ← readKey? p
    let q := q.skipBlanks.skipComment
    let (value, q) ← match q.rest with
      | [] => pure (.empty, q)
      | '\n' :: _ => do
        let q ← q.endLine
        if !q.isEnd && q.column = column && q.atDash then do
          let (items, q) ← readItems room column q
          pure (.sequence items, q)
        else readBlock room column q
      | _ => do
        let (value, q) ← readInline column q
        pure (value, ← q.endLine)
    if q.isEnd || q.column < column then return ([(key, value)], q)
    else if q.column = column then
      let (members, q) ← readMembers room column q
      return ((key, value) :: members, q)
    else none

end

/-! ## Documents -/

/-- A text with a line feed at the end of each line. -/
def normalLines : List Char → List Char
  | [] => []
  | '\r' :: rest =>
    match rest with
    | '\n' :: rest => '\n' :: normalLines rest
    | rest => '\n' :: normalLines rest
  | c :: rest =>
    (if c == '\u0085' || c == '\u2028' || c == '\u2029' then '\n' else c) :: normalLines rest

/-- A character that may stand in a document. -/
def isAllowed (c : Char) : Bool :=
  let n := c.toNat
  n == 9 || n == 10 || n == 13 || (32 ≤ n && n ≤ 126) || n == 0x85
    || (0xA0 ≤ n && n ≤ 0xFFFD && n != 0xFEFF) || 0x10000 ≤ n

/-- A text without the byte order mark that it may start with. -/
def withoutMark : List Char → List Char
  | '\ufeff' :: rest => rest
  | text => text

/-- Nothing but the end of the document comes next. -/
def isLast (p : Place) : Bool :=
  match p.rest with
  | [] => true
  | '.' :: _ =>
    match (p.advance 3).endLine with
    | some p => p.rest.isEmpty
    | none => false
  | _ => false

/-- The node of a text that is one document, empty when there is no content. -/
def Node.parse? (text : List Char) : Option Node := do
  let text := withoutMark text
  if !text.all isAllowed then none
  let text := normalLines text
  let room := 4 * text.length + 8
  let p ← Place.toContent (text.length + 1) ⟨0, text⟩
  let (node, p) ←
    if p.atMarker then do
      if p.rest.head? = some '.' then none
      let p := (p.advance 3).skipBlanks.skipComment
      match p.rest with
      | [] => pure (.empty, p)
      | '\n' :: _ => do readBlock room (-1) (← p.endLine)
      | _ => do
        let (node, p) ← readInline (-1) p
        pure (node, ← p.endLine)
    else readBlock room (-1) p
  if isLast p then return node else none

end JsonLines.Yaml
