/-
JsonLines.Schema.Union — the least type that covers two types.

Null is covered by every type and any covers all of them. An integer is also a real. Arrays join
their element types. Records join field by field: a field of both is optional if it is so in one of
them, a field of only one becomes optional. All other pairs of different types have only any in
common. Joining may register types, each after the types that it refers to.
-/
import JsonLines.Schema.Registry

namespace JsonLines.Schema

/-- The fields of the first list, each joined with the field of that name in the second one. There is
no result if some types have none. -/
def joinFields (join : Schema → TypeId → TypeId → Option (TypeId × Schema)) (others : List Field) :
    Schema → List Field → Option (List Field × Schema)
  | s, [] => some ([], s)
  | s, field :: fields =>
    match others.find? (·.name = field.name) with
    | some other => do
      let (type, s) ← join s field.type other.type
      let (rest, s) ← joinFields join others s fields
      return ({ field with type, optional := field.optional || other.optional } :: rest, s)
    | none => do
      let (rest, s) ← joinFields join others s fields
      return ({ field with optional := true } :: rest, s)

/-- The fields of the first list whose names the second one lacks, as optional fields. -/
def onlyIn (fields others : List Field) : List Field :=
  (fields.filter fun field => !others.any (·.name = field.name)).map
    fun field => { field with optional := true }

/-- The union of two types, if its recursion ends within as many levels as the first argument
says. -/
def unionWithin : Nat → Schema → TypeId → TypeId → Option (TypeId × Schema)
  | 0, _, _, _ => none
  | depth + 1, s, a, b =>
    if a = b then some (a, s)
    else if a = .null then some (b, s)
    else if b = .null then some (a, s)
    else if a = .any ∨ b = .any then some (.any, s)
    else
      match s.get? a, s.get? b with
      | some .integer, some .real => some (.real, s)
      | some .real, some .integer => some (.real, s)
      | some (.composite (.array a)), some (.composite (.array b)) => do
        let (element, s) ← unionWithin depth s a b
        return s.array element
      | some (.composite (.record as)), some (.composite (.record bs)) => do
        let (joined, s) ← joinFields (unionWithin depth) bs s as
        return s.record (joined ++ onlyIn bs as)
      | _, _ => some (.any, s)

/-- The union of two types. A type refers to types registered before it, so no type nests deeper
than there are types and the recursion ends. -/
def union (s : Schema) (a b : TypeId) : TypeId × Schema :=
  (unionWithin s.size s a b).getD (.any, s)

/-- The union of some types, null for none. -/
def unionAll (s : Schema) (ids : List TypeId) : TypeId × Schema :=
  ids.foldl (fun (type, s) id => s.union type id) (.null, s)

end JsonLines.Schema
