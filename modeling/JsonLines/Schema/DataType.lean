/-
JsonLines.Schema.DataType — the types that JSON values have.

Types and field names are referred to by number. The six primitive types have fixed numbers; arrays
and records are numbered from six on as a schema comes to know them. A field of a record is optional
when some of the values lack it.
-/
namespace JsonLines

/-- The number of a type in a schema. -/
structure TypeId where
  index : Nat
deriving DecidableEq, Repr, Inhabited

/-- The number of a field name in a schema. -/
structure NameId where
  index : Nat
deriving DecidableEq, Repr, Inhabited

namespace TypeId

/-- The type of `null` and of absent values. -/
def null : TypeId := ⟨0⟩

/-- The type of `true` and `false`. -/
def boolean : TypeId := ⟨1⟩

/-- The type of numbers without fraction and exponent. -/
def integer : TypeId := ⟨2⟩

/-- The type of all numbers. -/
def real : TypeId := ⟨3⟩

/-- The type of strings. -/
def text : TypeId := ⟨4⟩

/-- The type of all values. -/
def any : TypeId := ⟨5⟩

/-- The number of primitive types. -/
def primitives : Nat := 6

/-- The type is one of those that every schema knows. -/
def isPrimitive (id : TypeId) : Bool := id.index < primitives

end TypeId

/-- A field of a record type. -/
structure Field where
  name : NameId
  type : TypeId
  optional : Bool := false
deriving DecidableEq, Repr, Inhabited

/-- A type that refers to other types. -/
inductive Composite where
  | array (element : TypeId)
  | record (fields : List Field)
deriving DecidableEq, Repr, Inhabited

/-- The first field stands no later than the second one when fields are sorted: by name, then by
type, the required one first. -/
def Field.le (f g : Field) : Bool :=
  f.name.index < g.name.index || f.name.index = g.name.index &&
    (f.type.index < g.type.index || f.type.index = g.type.index && (!f.optional || g.optional))

/-- Sorted fields with one more field in its place. -/
def Field.insertSorted (field : Field) : List Field → List Field
  | [] => [field]
  | f :: fs => if field.le f then field :: f :: fs else f :: field.insertSorted fs

/-- The fields in the order of `Field.le`. -/
def Field.sorted (fields : List Field) : List Field := fields.foldr Field.insertSorted []

/-- What tells composite types apart. -/
inductive TypeKey where
  | array (element : TypeId)
  | record (sorted : List Field)
deriving DecidableEq, Repr, Inhabited

/-- The key of a type: records are sets of fields, and their order does not tell them apart. -/
def Composite.key : Composite → TypeKey
  | .array element => .array element
  | .record fields => .record (Field.sorted fields)

/-- A type of a schema. -/
inductive DataType where
  | null
  | boolean
  | integer
  | real
  | text
  | any
  | composite (type : Composite)
deriving DecidableEq, Repr, Inhabited

/-- What a type is, without what it refers to. -/
inductive Kind where
  | null
  | boolean
  | integer
  | real
  | text
  | array
  | record
  | any
deriving DecidableEq, Repr, Inhabited

namespace Kind

/-- The values are numbers. -/
def isNumeric : Kind → Bool
  | .integer | .real => true
  | _ => false

/-- The values hold other values. -/
def isComposite : Kind → Bool
  | .array | .record => true
  | _ => false

/-- The name of the kind. -/
def name : Kind → String
  | .null => "null"
  | .boolean => "boolean"
  | .integer => "integer"
  | .real => "real"
  | .text => "text"
  | .array => "array"
  | .record => "record"
  | .any => "any"

end Kind

namespace DataType

/-- The kind of a type. -/
def kind : DataType → Kind
  | .null => .null
  | .boolean => .boolean
  | .integer => .integer
  | .real => .real
  | .text => .text
  | .any => .any
  | .composite (.array _) => .array
  | .composite (.record _) => .record

/-- The fields of a record type. -/
def fields? : DataType → Option (List Field)
  | .composite (.record fields) => some fields
  | _ => none

/-- The element type of an array type. -/
def element? : DataType → Option TypeId
  | .composite (.array element) => some element
  | _ => none

end DataType

end JsonLines
