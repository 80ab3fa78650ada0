/-
JsonLines.Scan.Scanner — giving a type to every value of a text.

`Scanner.scan` reads the text of a span and walks its tree, registering names and types in the
schema as it goes. On entering an array or an object the nesting is checked; then all the names of
an object are decoded; then each member in turn is checked for a repeated name and scanned. The
types of inner values are registered before those of outer ones. What a failed scan registered
before it failed stays in the schema.
-/
import JsonLines.Scan.Cell
import JsonLines.Scan.ScanError
import JsonLines.Schema.Union
import JsonLines.Source.ByteSource
import JsonLines.Json.Node

namespace JsonLines

/-- The decoded names of members, or the first fault among them. -/
def Json.decodeNames : List (Json.Key × Json.Node) → Except Json.Fault (List String)
  | [] => .ok []
  | (key, _) :: members =>
    match key.decode with
    | .error e => .error e
    | .ok name =>
      match decodeNames members with
      | .error e => .error e
      | .ok names => .ok (String.ofList name :: names)

/-- How deep arrays and objects may nest. -/
structure Scanner where
  maxDepth : Nat := 128
deriving DecidableEq, Repr

namespace Scanner

mutual

/-- The cell of a node inside `depth` containers, and the schema with its types. -/
def scanNode (scanner : Scanner) (source : ByteSource) (depth : Nat) (schema : Schema) :
    Json.Node → Except ScanError Cell × Schema
  | .null span => (.ok (.leaf span .null), schema)
  | .boolean span _ => (.ok (.leaf span .boolean), schema)
  | .number span numeral =>
    (.ok (.leaf span (if numeral.isIntegral then .integer else .real)), schema)
  | .text span _ => (.ok (.leaf span .text), schema)
  | .array span items =>
    if scanner.maxDepth ≤ depth then (.error (.tooDeep scanner.maxDepth), schema)
    else
      match scanItems scanner source (depth + 1) schema .null items with
      | (.error e, schema) => (.error e, schema)
      | (.ok (cells, element), schema) =>
        let (type, schema) := schema.array element
        (.ok (.array span type cells), schema)
  | .object span members =>
    if scanner.maxDepth ≤ depth then (.error (.tooDeep scanner.maxDepth), schema)
    else
      match Json.decodeNames members with
      | .error fault =>
        (.error (.malformed (fault.locate (source.slice span).data.toList span.offset)), schema)
      | .ok names =>
        match scanMembers scanner source (depth + 1) schema [] names members with
        | (.error e, schema) => (.error e, schema)
        | (.ok fields, schema) =>
          let (type, schema) :=
            schema.record (fields.map fun (name, cell) => ⟨name, cell.type, false⟩)
          (.ok (.record span type fields), schema)

/-- The cells of items, and the union of `element` and their types. -/
def scanItems (scanner : Scanner) (source : ByteSource) (depth : Nat) (schema : Schema)
    (element : TypeId) : List Json.Node → Except ScanError (List Cell × TypeId) × Schema
  | [] => (.ok ([], element), schema)
  | item :: items =>
    match scanNode scanner source depth schema item with
    | (.error e, schema) => (.error e, schema)
    | (.ok cell, schema) =>
      let (element, schema) := schema.union element cell.type
      match scanItems scanner source depth schema element items with
      | (.error e, schema) => (.error e, schema)
      | (.ok (cells, element), schema) => (.ok (cell :: cells, element), schema)

/-- The cells of members with their names, none of which may be among `seen` or repeat. -/
def scanMembers (scanner : Scanner) (source : ByteSource) (depth : Nat) (schema : Schema)
    (seen : List NameId) (names : List String) :
    List (Json.Key × Json.Node) → Except ScanError (List (NameId × Cell)) × Schema
  | [] => (.ok [], schema)
  | (_, node) :: members =>
    match names with
    | [] => (.ok [], schema)
    | name :: names =>
      let (id, schema) := schema.intern name
      if id ∈ seen then (.error (.duplicateField name), schema)
      else
        match scanNode scanner source depth schema node with
        | (.error e, schema) => (.error e, schema)
        | (.ok cell, schema) =>
          match scanMembers scanner source depth schema (id :: seen) names members with
          | (.error e, schema) => (.error e, schema)
          | (.ok fields, schema) => (.ok ((id, cell) :: fields), schema)

end

/-- The tree of the text of a span. -/
def readTree (source : ByteSource) (span : Span) : Except ScanError Json.Node :=
  if span.fits source.size then
    let bytes := source.slice span
    match Utf8.decode bytes with
    | .error valid => .error (.invalidUtf8 valid)
    | .ok text =>
      match Json.Node.parse span.offset text with
      | .error fault => .error (.malformed (fault.locate bytes.data.toList span.offset))
      | .ok node => .ok node
  else .error (.outOfBounds span)

/-- The cell of the text of a span, and the schema with its types. -/
def scan (scanner : Scanner) (source : ByteSource) (schema : Schema) (span : Span) :
    Except ScanError Cell × Schema :=
  match readTree source span with
  | .error e => (.error e, schema)
  | .ok node => scanner.scanNode source 0 schema node

end Scanner

end JsonLines
