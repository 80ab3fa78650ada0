/-
JsonLines.Schema.Registry — the types and field names that a text has shown so far.

A schema only grows: a new name or a new composite type takes the next number and keeps it. What is
already known is found again, records irrespective of the order of their fields, so that equal
numbers mean equal types. The fields of a record stay in the order in which it was first seen.

Types and names stand in two tables at their numbers, and two indexes lead back: from the key of a
type and from the text of a name to the number. A schema carries the proofs that its indexes are in
step with its tables, so whatever adds to a table has to add to its index as well.
-/
import JsonLines.Schema.DataType

namespace JsonLines

/-! ## Indexes -/

/-- An index is in step with a table: it gives for a key the one number where the table has it, and
nothing for the keys that the table lacks. -/
def InStep {κ ν : Type} [BEq κ] (index : List (κ × ν)) (table : ν → Option κ) : Prop :=
  ∀ key number, index.lookup key = some number ↔ table number = some key

theorem inStep_nil {κ ν : Type} [BEq κ] {table : ν → Option κ} (h : ∀ number, table number = none) :
    InStep [] table := fun key number => by simp [h number]

/-- Index and table stay in step when both take a new key, at a number that was free. -/
theorem InStep.cons {κ ν : Type} [BEq κ] [LawfulBEq κ] [DecidableEq ν] {index : List (κ × ν)}
    {table grown : ν → Option κ} {key : κ} {number : ν} (h : InStep index table)
    (hnew : index.lookup key = none) (hfree : table number = none)
    (hgrown : ∀ n, grown n = if n = number then some key else table n) :
    InStep ((key, number) :: index) grown := by
  intro k n
  rw [List.lookup_cons, hgrown]
  by_cases hk : k = key
  · subst hk
    have hlacks : table n ≠ some k := fun hn => by
      rw [(h k n).mpr hn] at hnew
      cases hnew
    by_cases hn : n = number
    · simp [hn]
    · simp [hn, hlacks, Ne.symm hn]
  · have hkey : (k == key) = false := by simpa using hk
    rw [hkey, h k n]
    by_cases hn : n = number
    · simp [hn, hfree, Ne.symm hk]
    · simp [hn]

/-! ## Schemas -/

/-- The composite type of a number; the primitive types come first and are not among them. -/
def compositeAt? (composites : Array Composite) (id : TypeId) : Option Composite :=
  if id.isPrimitive then none else composites[id.index - TypeId.primitives]?

/-- The composite types and the field names of a text, each in the order of first sight, with the
indexes that lead back to their numbers. -/
structure Schema where
  composites : Array Composite
  index : List (TypeKey × TypeId)
  names : Array String
  nameIndex : List (String × NameId)
  /-- The index has the key of every composite type, and no other one. -/
  index_inStep : InStep index fun id => (compositeAt? composites id).map Composite.key
  /-- The index of the names has every name, and no other one. -/
  nameIndex_inStep : InStep nameIndex fun id => names[id.index]?
deriving DecidableEq, Repr

namespace Schema

/-- The schema that knows the primitive types alone. -/
def empty : Schema where
  composites := #[]
  index := []
  names := #[]
  nameIndex := []
  index_inStep := inStep_nil fun id => by simp [compositeAt?]
  nameIndex_inStep := inStep_nil fun id => by simp

instance : Inhabited Schema := ⟨empty⟩

/-- The number of known types, primitive ones included. -/
def size (s : Schema) : Nat := TypeId.primitives + s.composites.size

/-- The number of composite types. -/
def discovered (s : Schema) : Nat := s.composites.size

/-- No composite type is known. -/
def isEmpty (s : Schema) : Bool := s.discovered == 0

/-- The type of a number, if the schema knows it. -/
def get? (s : Schema) (id : TypeId) : Option DataType :=
  match id.index with
  | 0 => some .null
  | 1 => some .boolean
  | 2 => some .integer
  | 3 => some .real
  | 4 => some .text
  | 5 => some .any
  | n + 6 => (s.composites[n]?).map .composite

/-- The kind of a type; one that the schema does not know may be anything. -/
def kind (s : Schema) (id : TypeId) : Kind := ((s.get? id).map DataType.kind).getD .any

/-- The fields of a record type. -/
def fields? (s : Schema) (id : TypeId) : Option (List Field) := (s.get? id).bind DataType.fields?

/-- The element type of an array type. -/
def element? (s : Schema) (id : TypeId) : Option TypeId := (s.get? id).bind DataType.element?

/-! ## Names -/

/-- The text of a name. -/
def name? (s : Schema) (id : NameId) : Option String := s.names[id.index]?

/-- The text of a name, empty when the schema does not know it. -/
def name (s : Schema) (id : NameId) : String := (s.name? id).getD ""

/-- The number of a name. -/
def nameId? (s : Schema) (name : String) : Option NameId := s.nameIndex.lookup name

/-- The schema with a new name, at the next number. -/
def addName (s : Schema) (name : String) (hnew : s.nameId? name = none) : Schema where
  composites := s.composites
  index := s.index
  names := s.names.push name
  nameIndex := (name, ⟨s.names.size⟩) :: s.nameIndex
  index_inStep := s.index_inStep
  nameIndex_inStep := s.nameIndex_inStep.cons hnew (by simp) fun ⟨n⟩ => by
    simp [Array.getElem?_push]

/-- The number of a name, which is new if the schema does not know it. -/
def intern (s : Schema) (name : String) : NameId × Schema :=
  match hfind : s.nameId? name with
  | some id => (id, s)
  | none => (⟨s.names.size⟩, s.addName name hfind)

/-! ## Types -/

/-- The number of a composite type. -/
def find? (s : Schema) (type : Composite) : Option TypeId := s.index.lookup type.key

theorem compositeAt?_push (s : Schema) (type : Composite) (id : TypeId) :
    compositeAt? (s.composites.push type) id =
      if id = ⟨s.size⟩ then some type else compositeAt? s.composites id := by
  obtain ⟨n⟩ := id
  simp only [compositeAt?, TypeId.isPrimitive, size, TypeId.mk.injEq, decide_eq_true_eq,
    Array.getElem?_push]
  by_cases hn : n < TypeId.primitives
  · rw [if_pos hn, if_pos hn, if_neg (by omega)]
  · rw [if_neg hn, if_neg hn]
    congr 1
    simp only [eq_iff_iff]
    omega

/-- The schema with a new composite type, at the next number. -/
def addType (s : Schema) (type : Composite) (hnew : s.find? type = none) : Schema where
  composites := s.composites.push type
  index := (type.key, ⟨s.size⟩) :: s.index
  names := s.names
  nameIndex := s.nameIndex
  index_inStep := s.index_inStep.cons hnew (by simp [compositeAt?, size]) fun id => by
    rw [compositeAt?_push]
    split <;> rfl
  nameIndex_inStep := s.nameIndex_inStep

/-- The number of a composite type, which is new if the schema does not know it. -/
def register (s : Schema) (type : Composite) : TypeId × Schema :=
  match hfind : s.find? type with
  | some id => (id, s)
  | none => (⟨s.size⟩, s.addType type hfind)

/-- The type of arrays with elements of a type. -/
def array (s : Schema) (element : TypeId) : TypeId × Schema := s.register (.array element)

/-- The type of records with some fields, of distinct names. -/
def record (s : Schema) (fields : List Field) : TypeId × Schema := s.register (.record fields)

end Schema

end JsonLines
