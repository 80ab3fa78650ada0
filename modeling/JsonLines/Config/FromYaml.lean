/-
JsonLines.Config.FromYaml — settings written as YAML.

The document is a mapping of sections, each of which is a mapping. Unknown keys are passed over and
known ones must not repeat; what is left out keeps its default, and so does a section with nothing
in it, which is not the same as a null. Quoted scalars are strings; plain ones may be booleans,
integers or null. A text of white space alone leaves everything out.
-/
import JsonLines.Config.Settings
import JsonLines.Number.Word
import JsonLines.Text.Blank
import JsonLines.Yaml.Node

namespace JsonLines.Config

/-- Each known key of a mapping changes a record by its value; the others are passed over. Where
nothing is written there are no keys. -/
def readMapping {σ : Type} (fields : List (String × (σ → Yaml.Node → Option σ))) (default : σ) :
    Yaml.Node → Option σ
  | .mapping members => go [] default members
  | .scalar true [] => some default
  | _ => none
where
  /-- The members from the next one on, after the known keys `seen`. -/
  go (seen : List String) (record : σ) : List (Yaml.Node × Yaml.Node) → Option σ
    | [] => some record
    | (.scalar _ key, value) :: members =>
      match fields.find? (·.1 = String.ofList key) with
      | none => go seen record members
      | some (name, read) =>
        if name ∈ seen then none
        else
          match read record value with
          | none => none
          | some record => go (name :: seen) record members
    | _ => none

/-- A boolean: a plain word in lower case, capitals, or with a capital. -/
def readBoolean : Yaml.Node → Option Bool
  | .scalar true text =>
    if String.ofList text ∈ ["true", "True", "TRUE"] then some true
    else if String.ofList text ∈ ["false", "False", "FALSE"] then some false
    else none
  | _ => none

/-- The number that digits of a base write, at least one. -/
def ofBase? (base : Nat) (digits : List Char) : Option Nat :=
  if digits.isEmpty then none
  else
    digits.foldlM (fun n c =>
      match Yaml.hexDigit? c with
      | some digit => if digit < base then some (n * base + digit) else none
      | none => none) 0

/-- The number that a plain scalar writes, after an optional plus sign: decimal digits without
needless zeros, or digits of another base after its mark. -/
def ofDigits? : List Char → Option Nat
  | '0' :: 'x' :: digits => ofBase? 16 digits
  | '0' :: 'o' :: digits => ofBase? 8 digits
  | '0' :: 'b' :: digits => ofBase? 2 digits
  | '0' :: _ :: _ => none
  | digits => ofBase? 10 digits

/-- An integer that is not negative and has at most 64 bits. -/
def readNatural : Yaml.Node → Option Nat
  | .scalar true text => do
    let n ← ofDigits? (match text with
      | '+' :: digits => digits
      | digits => digits)
    if n < Word.modulus then some n else none
  | _ => none

/-- The node is null. -/
def isNull : Yaml.Node → Bool
  | .scalar true text => String.ofList text ∈ ["", "~", "null", "Null", "NULL"]
  | _ => false

/-- The settings that a document writes. -/
def readConfig : Yaml.Node → Option Config :=
  readMapping
    [("source", fun config node => do
        let reading ← readMapping
          [("mmap", fun (r : Reading) node => do return { r with mapped := ← readBoolean node }),
           ("skip_blank_lines", fun r node => do
              return { r with skipBlankLines := ← readBoolean node })]
          {} node
        return { config with reading }),
     ("limits", fun config node => do
        let limits ← readMapping
          [("max_rows", fun (l : Limits) node => do
              if isNull node then return { l with maxRows := none }
              return { l with maxRows := some (← readNatural node) }),
           ("max_depth", fun l node => do return { l with maxDepth := ← readNatural node })]
          {} node
        return { config with limits }),
     ("log_level", fun config node => do
        match node with
        | .scalar _ text =>
          return { config with logLevel := ← LogLevel.ofName? (String.ofList text) }
        | _ => none)]
    {}

/-- The settings that a YAML text writes. -/
def ofYaml (text : List Char) : Except Error Config :=
  if (Blank.trim text).isEmpty then .ok {}
  else
    match (Yaml.Node.parse? text).bind readConfig with
    | none => .error .malformedYaml
    | some config =>
      match config.validate with
      | .error e => .error e
      | .ok () => .ok config

end JsonLines.Config
