/-
JsonLines.Proofs.Schema.NamedTree — types whose fields are named by texts.

The numbers of names belong to one schema, so trees over them cannot be compared between schemas.
`TypeTree.relabel` names the fields of a tree anew, by what each new name stands for; it commutes
with joins. `Schema.namedTree` is the tree of a type over the texts of names: what a type says
without its schema.
-/
import JsonLines.Proofs.Schema.Unfolding

namespace JsonLines

namespace TypeTree

variable {M N : Type} {look : M → Option N}

/-- The tree with other names for its fields, given what each of these stands for. A name that stands
for nothing is lacking everywhere. -/
def relabel (look : M → Option N) : TypeTree N → TypeTree M
  | .null => .null
  | .boolean => .boolean
  | .integer => .integer
  | .real => .real
  | .text => .text
  | .any => .any
  | .array a => .array (a.relabel look)
  | .record p a => .record (fun m => match look m with
      | none => .lacking
      | some n => p n) fun m => match look m with
      | none => .null
      | some n => (a n).relabel look

/-- **Renaming commutes with joins.** -/
theorem relabel_join (a b : TypeTree N) :
    (a.join b).relabel look = (a.relabel look).join (b.relabel look) := by
  induction a generalizing b with
  | array a ih => cases b <;> simp [join, relabel, ih]
  | record p a ih =>
    cases b with
    | record q b =>
      simp only [join, relabel, record.injEq]
      constructor <;> funext m <;> cases look m with
      | none => rfl
      | some n => simp [ih]
    | _ => simp [join, relabel]
  | _ => cases b <;> simp [join, relabel]

theorem relabel_joinAll (trees : List (TypeTree N)) :
    (joinAll trees).relabel look = joinAll (trees.map (relabel look)) := by
  induction trees with
  | nil => rfl
  | cons t trees ih =>
    simp only [joinAll, List.map_cons, List.foldr_cons] at ih ⊢
    rw [sup_def, relabel_join, ih, sup_def]

end TypeTree

namespace Schema

variable {s : Schema} {id element : TypeId} {fields : List Field}

/-- The tree of a type over the texts of names. -/
def namedTree (s : Schema) (id : TypeId) : TypeTree String := (s.tree id).relabel s.nameId?

/-- The field of a name that is given by its text. -/
def fieldNamed? (s : Schema) (fields : List Field) (name : String) : Option Field :=
  (s.nameId? name).bind (Field.named? fields)

/-- The tree of the type of a field, null if there is no field. -/
def namedTreeOf? (s : Schema) : Option Field → TypeTree String
  | none => .null
  | some field => s.namedTree field.type

@[simp] theorem namedTree_null : s.namedTree .null = .null := by rw [namedTree, tree_null]; rfl
@[simp] theorem namedTree_boolean : s.namedTree .boolean = .boolean := by
  rw [namedTree, tree_boolean]; rfl
@[simp] theorem namedTree_integer : s.namedTree .integer = .integer := by
  rw [namedTree, tree_integer]; rfl
@[simp] theorem namedTree_real : s.namedTree .real = .real := by rw [namedTree, tree_real]; rfl
@[simp] theorem namedTree_text : s.namedTree .text = .text := by rw [namedTree, tree_text]; rfl

theorem namedTree_array (hs : s.WellFormed)
    (h : s.get? id = some (.composite (.array element))) :
    s.namedTree id = .array (s.namedTree element) := by
  rw [namedTree, tree_array hs h]
  rfl

/-- A record says of a text what it says of the name with that text. -/
theorem namedTree_record (hs : s.WellFormed)
    (h : s.get? id = some (.composite (.record fields))) :
    s.namedTree id = .record (fun name => .ofField? (s.fieldNamed? fields name))
      fun name => s.namedTreeOf? (s.fieldNamed? fields name) := by
  rw [namedTree, tree_record hs h]
  simp only [recordTree, TypeTree.relabel, TypeTree.record.injEq, fieldNamed?]
  constructor <;> funext name <;> cases s.nameId? name with
  | none => rfl
  | some n =>
    first
    | rfl
    | simp only [Option.bind_some]
      cases Field.named? fields n <;> rfl

end Schema

end JsonLines
