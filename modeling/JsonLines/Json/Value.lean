/-
JsonLines.Json.Value — JSON values without places, and their texts.

`Value.ofNode` reads a placed value: names and strings decode, numbers are those of
`JsonLines.Json.Number`, and containers nest less than 128 deep. An object keeps its members in the
order of their names, the last of equal names winning. One name is special: an object that begins
with it stands for the value that is written in the string bound to it, and that string is read as
a text of its own. `compact` and `pretty` write a value.
-/
import JsonLines.Json.Typed

namespace JsonLines.Json

/-- A JSON value. Members of an object are in the order of their names. -/
inductive Value where
  | null
  | boolean (value : Bool)
  | number (value : Number)
  | string (value : String)
  | array (items : List Value)
  | object (members : List (String × Value))
deriving Repr, Inhabited

namespace Value

/-- An integer. -/
def ofNat (n : Nat) : Value := .number (.integer n)

/-- The members with one more, in the order of names; an equal name is replaced. -/
def insert (name : String) (value : Value) : List (String × Value) → List (String × Value)
  | [] => [(name, value)]
  | (other, old) :: members =>
    if name < other then (name, value) :: (other, old) :: members
    else if other < name then (other, old) :: insert name value members
    else (name, value) :: members

/-- The object of some members. -/
def ofMembers (members : List (String × Value)) : Value :=
  .object (members.foldl (fun object (name, value) => insert name value object) [])

/-- Containers nested this deep are refused. -/
def nestingLimit : Nat := 128

/-- The name of the first member of an object that holds the text of another value. -/
def embeddedName : String := "$serde_json::private::RawValue"

/-- The members are those of an object that holds the text of another value. -/
def embedsText : List (Key × Node) → Bool
  | [] => false
  | (key, _) :: _ =>
    match key.decode with
    | .error _ => false
    | .ok name => String.ofList name = embeddedName

/-- Why a placed value is refused: for a fault of its text, or for one in a text that it holds. -/
inductive Refusal where
  | fault (fault : Fault)
  | embedded (fault : LocatedFault)

/-- What stands where the text of a value should: a string, decoded. -/
def heldText (node : Node) : Except Fault (List Char) :=
  let expected := "raw value"
  match node with
  | .text span raw => Key.decode ⟨span.offset + 1, raw⟩
  | .null span => .error ⟨.invalidType .null expected, span.stop⟩
  | .boolean span value => .error ⟨.invalidType (.boolean value) expected, span.stop⟩
  | .number span numeral =>
    match Number.ofNumeral span.stop numeral with
    | .error e => .error e
    | .ok n => .error ⟨.invalidType (Typed.foundNumber n) expected, span.stop⟩
  | .array span _ => .error ⟨.invalidType .sequence expected, span.offset⟩
  | .object span _ => .error ⟨.invalidType .map expected, span.offset⟩

/-- The place of a position in the characters `rest`, the first of which stands at `position`. -/
def cursorAt (stop position : Nat) : List Char → Cursor
  | [] => ⟨position, []⟩
  | ch :: rest =>
    if stop ≤ position then ⟨position, ch :: rest⟩
    else cursorAt stop (position + ch.utf8Size) rest

/-- The value whose text the first member holds, read by `embed`. No member may follow. The text
around the members is that of the cursor. -/
def ofEmbedded (embed : List Char → Except LocatedFault Value) (text : Cursor) :
    List (Key × Node) → Except Refusal Value
  | [] => .ok (.object [])
  | (_, node) :: others =>
    match heldText node with
    | .error e => .error (.fault e)
    | .ok inner =>
      match embed inner with
      | .error e => .error (.embedded e)
      | .ok value =>
        if others.isEmpty then .ok value
        else
          let comma := (cursorAt node.span.stop text.position text.rest).skipBlanks
          .error (.fault (comma.peek .trailingComma))

mutual

/-- The value of a node inside `depth` containers. Texts that it holds are read by `embed`. -/
def ofNode (embed : List Char → Except LocatedFault Value) (text : Cursor) (depth : Nat) :
    Node → Except Refusal Value
  | .null _ => .ok .null
  | .boolean _ value => .ok (.boolean value)
  | .number span numeral =>
    match Number.ofNumeral span.stop numeral with
    | .error e => .error (.fault e)
    | .ok n => .ok (.number n)
  | .text span raw =>
    match Key.decode ⟨span.offset + 1, raw⟩ with
    | .error e => .error (.fault e)
    | .ok text => .ok (.string (String.ofList text))
  | .array span items =>
    if nestingLimit ≤ depth + 1 then .error (.fault ⟨.recursionLimit, span.offset + 1⟩)
    else
      match ofNodes embed text (depth + 1) items with
      | .error e => .error e
      | .ok values => .ok (.array values)
  | .object span members =>
    if nestingLimit ≤ depth + 1 then .error (.fault ⟨.recursionLimit, span.offset + 1⟩)
    else if embedsText members then ofEmbedded embed text members
    else
      match ofMemberNodes embed text (depth + 1) members with
      | .error e => .error e
      | .ok values => .ok (ofMembers values)

/-- The values of nodes, up to the first fault. -/
def ofNodes (embed : List Char → Except LocatedFault Value) (text : Cursor) (depth : Nat) :
    List Node → Except Refusal (List Value)
  | [] => .ok []
  | node :: nodes =>
    match ofNode embed text depth node with
    | .error e => .error e
    | .ok value =>
      match ofNodes embed text depth nodes with
      | .error e => .error e
      | .ok values => .ok (value :: values)

/-- The names and values of members, up to the first fault. -/
def ofMemberNodes (embed : List Char → Except LocatedFault Value) (text : Cursor) (depth : Nat) :
    List (Key × Node) → Except Refusal (List (String × Value))
  | [] => .ok []
  | (key, node) :: members =>
    match key.decode with
    | .error e => .error (.fault e)
    | .ok name =>
      match ofNode embed text depth node with
      | .error e => .error e
      | .ok value =>
        match ofMemberNodes embed text depth members with
        | .error e => .error e
        | .ok values => .ok ((String.ofList name, value) :: values)

end

/-- The fault of a refusal, in a text that was read from its start. -/
def Refusal.locate (cs : List Char) : Refusal → LocatedFault
  | .fault e => e.locate (String.ofList cs).toUTF8.data.toList 0
  | .embedded e => e

/-- The value that a whole text writes, if texts are held in each other at less than as many levels
as the first argument says. -/
def parseWithin : Nat → List Char → Except LocatedFault Value
  | 0, cs => .error ((Refusal.fault ⟨.recursionLimit, 0⟩).locate cs)
  | levels + 1, cs =>
    match Node.parse 0 cs with
    | .error e => .error ((Refusal.fault e).locate cs)
    | .ok node =>
      match ofNode (parseWithin levels) ⟨0, cs⟩ 0 node with
      | .error e => .error (e.locate cs)
      | .ok value => .ok value

/-- The value that a whole text writes. A text that it holds is shorter, so there are enough levels
for all texts inside each other. -/
def parse (cs : List Char) : Except LocatedFault Value := parseWithin (cs.length + 1) cs

mutual

/-- The text of a value without blanks. -/
def compact : Value → String
  | .null => "null"
  | .boolean b => if b then "true" else "false"
  | .number n => n.render
  | .string s => Literal.quote s
  | .array items => "[" ++ String.intercalate "," (compactItems items) ++ "]"
  | .object members => "\x7b" ++ String.intercalate "," (compactMembers members) ++ "\x7d"

/-- The texts of items. -/
def compactItems : List Value → List String
  | [] => []
  | item :: items => item.compact :: compactItems items

/-- The texts of members. -/
def compactMembers : List (String × Value) → List String
  | [] => []
  | (name, value) :: members =>
    (Literal.quote name ++ ":" ++ value.compact) :: compactMembers members

end

/-- A new line, indented by two spaces for each level. -/
def newLine (level : Nat) : String := "\n" ++ String.ofList (List.replicate (2 * level) ' ')

/-- Parts between two brackets, each on a line of its own; nothing but brackets if there are
none. -/
def block (level : Nat) (opening : String) (parts : List String) (closing : String) : String :=
  if parts.isEmpty then opening ++ closing
  else
    opening ++ newLine (level + 1) ++ String.intercalate ("," ++ newLine (level + 1)) parts
      ++ newLine level ++ closing

mutual

/-- The text of a value over several lines, from a line indented by `level` levels. -/
def pretty (level : Nat) : Value → String
  | .null => "null"
  | .boolean b => if b then "true" else "false"
  | .number n => n.render
  | .string s => Literal.quote s
  | .array items => block level "[" (prettyItems (level + 1) items) "]"
  | .object members => block level "\x7b" (prettyMembers (level + 1) members) "\x7d"

/-- The texts of items. -/
def prettyItems (level : Nat) : List Value → List String
  | [] => []
  | item :: items => item.pretty level :: prettyItems level items

/-- The texts of members. -/
def prettyMembers (level : Nat) : List (String × Value) → List String
  | [] => []
  | (name, value) :: members =>
    (Literal.quote name ++ ": " ++ value.pretty level) :: prettyMembers level members

end

end Value

end JsonLines.Json
