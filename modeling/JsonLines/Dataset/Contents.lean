/-
JsonLines.Dataset.Contents — rows with their schema and the type that covers them all.

Contents are gathered from picks: each pick is a span to scan, or nothing, which becomes an absent
value. One pick after the other is scanned into a schema that starts empty, its type is joined to
the type so far, and its cell is stored; the first failure ends the gathering. Loading a source
gathers its records. Every view of a dataset gathers spans again, so a view is typed by its own rows
alone.
-/
import JsonLines.Config.Settings
import JsonLines.Dataset.RowStore
import JsonLines.Scan.Scanner

namespace JsonLines

/-- Scanned rows, the schema they were scanned into, and the union of their types. -/
structure Contents where
  schema : Schema
  rows : Array Cell
  type : TypeId
deriving Repr, Inhabited

/-- The kind of the type that covers all rows. -/
def Contents.kind (c : Contents) : Kind := c.schema.kind c.type

/-- Where a row comes from: the span of its text if it has one, and the number that an error names
it by. -/
structure Pick where
  span : Option Span
  row : Nat
deriving DecidableEq, Repr

namespace Contents

/-- The bytes that a stored row takes. -/
def rowWidth : Nat := 48

/-- Contents that are still growing. -/
structure Gathering where
  schema : Schema
  store : RowStore Cell
  type : TypeId
deriving Repr

namespace Gathering

/-- No rows yet. -/
def start (limits : Config.Limits) : Gathering :=
  { schema := .empty, store := RowStore.withLimit rowWidth limits.maxRows, type := .null }

/-- One more row. -/
def add (source : ByteSource) (limits : Config.Limits) (g : Gathering) (pick : Pick) :
    Except Error Gathering :=
  let (outcome, schema) : Except ScanError Cell × Schema := match pick.span with
    | none => (.ok .absent, g.schema)
    | some span => Scanner.scan ⟨limits.maxDepth⟩ source g.schema span
  match outcome with
  | .error cause => .error (.malformedRecord pick.row cause)
  | .ok cell =>
    let (type, schema) := schema.union g.type cell.type
    match g.store.push cell with
    | .error e => .error e
    | .ok store => .ok { schema, store, type }

/-- The rows of some picks, one after the other. -/
def addAll (source : ByteSource) (limits : Config.Limits) (g : Gathering) :
    List Pick → Except Error Gathering
  | [] => .ok g
  | pick :: picks =>
    match g.add source limits pick with
    | .error e => .error e
    | .ok g => g.addAll source limits picks

end Gathering

/-- The contents that picks from a source make. -/
def gather (source : ByteSource) (limits : Config.Limits) (picks : List Pick) :
    Except Error Contents :=
  match (Gathering.start limits).addAll source limits picks with
  | .error e => .error e
  | .ok g => .ok { schema := g.schema, rows := g.store.finish, type := g.type }

/-- Spans as picks, numbered from `row` on. -/
def picksFrom (row : Nat) : List Span → List Pick
  | [] => []
  | span :: spans => ⟨some span, row⟩ :: picksFrom (row + 1) spans

/-- The records of a source. -/
def load (source : ByteSource) (config : Config) : Except Error Contents :=
  gather source config.limits (picksFrom 1 (source.records config.reading.skipBlankLines))

end Contents

end JsonLines
