/-
JsonLines.Proofs.Schema.Unfolding — the tree that a type number stands for.

`Schema.tree` follows the references of a type down to the primitive types. In a well-formed schema
references go to smaller numbers, so this ends, and the guards in the definition are always met
(`tree_array`, `tree_record`). What the development rests on: extending a schema changes no tree
(`tree_of_extends`), and two numbers of one schema with the same tree are the same number
(`tree_injective`).
-/
import JsonLines.Proofs.Schema.Registration
import JsonLines.Proofs.Schema.TypeTree

namespace JsonLines

/-! ## Fields by name -/

/-- The field of a name. -/
def Field.named? (fields : List Field) (name : NameId) : Option Field :=
  fields.find? (·.name = name)

/-- What a record says of a name, given its field of that name. -/
def Presence.ofField? : Option Field → Presence
  | none => .lacking
  | some field => if field.optional then .optional else .required

namespace Presence

theorem ofField?_ne_lacking (f : Field) : ofField? (some f) ≠ .lacking := by
  cases ho : f.optional <;> simp [ofField?, ho]

theorem ofField?_eq_optional_iff {f : Field} :
    ofField? (some f) = .optional ↔ f.optional = true := by
  cases ho : f.optional <;> simp [ofField?, ho]

theorem ofField?_eq_ofField?_iff {f g : Field} :
    ofField? (some f) = ofField? (some g) ↔ f.optional = g.optional := by
  cases ho : f.optional <;> cases ho' : g.optional <;> simp [ofField?, ho, ho']

end Presence

namespace Field

variable {fields gs : List Field} {f : Field} {n : NameId}

theorem named?_eq_none_iff : named? fields n = none ↔ n ∉ fields.map (·.name) := by
  simp [named?]

theorem name_of_named? (h : named? fields n = some f) : f.name = n := by
  simpa using List.find?_some h

theorem mem_of_named? (h : named? fields n = some f) : f ∈ fields := List.mem_of_find?_eq_some h

/-- Where names are distinct, a field is found by its name. -/
theorem named?_eq_some_iff (hnd : (fields.map (·.name)).Nodup) :
    named? fields n = some f ↔ f ∈ fields ∧ f.name = n := by
  constructor
  · intro h
    exact ⟨mem_of_named? h, name_of_named? h⟩
  · rintro ⟨hf, hn⟩
    cases hg : named? fields n with
    | none => exact absurd (hn ▸ List.mem_map_of_mem hf) (named?_eq_none_iff.mp hg)
    | some g =>
      have hname : g.name = f.name := (name_of_named? hg).trans hn.symm
      rw [List.inj_on_of_nodup_map hnd (mem_of_named? hg) hf hname]

/-- The order of fields does not matter to who is found. -/
theorem named?_of_perm (hnd : (fields.map (·.name)).Nodup) (hp : fields.Perm gs) (n : NameId) :
    named? fields n = named? gs n := by
  have hnd' : (gs.map (·.name)).Nodup := (hp.map _).nodup_iff.mp hnd
  ext f
  rw [named?_eq_some_iff hnd, named?_eq_some_iff hnd', hp.mem_iff]

/-- Two fields at most are the same if they agree in presence, name and type. -/
theorem option_ext {f? g? : Option Field}
    (hpres : Presence.ofField? f? = Presence.ofField? g?)
    (hname : ∀ f ∈ f?, ∀ g ∈ g?, f.name = g.name) (htype : ∀ f ∈ f?, ∀ g ∈ g?, f.type = g.type) :
    f? = g? := by
  cases f? with
  | none =>
    cases g? with
    | none => rfl
    | some g => exact absurd hpres.symm (Presence.ofField?_ne_lacking g)
  | some f =>
    cases g? with
    | none => exact absurd hpres (Presence.ofField?_ne_lacking f)
    | some g =>
      have hn : f.name = g.name := hname f rfl g rfl
      have ht : f.type = g.type := htype f rfl g rfl
      have ho : f.optional = g.optional := Presence.ofField?_eq_ofField?_iff.mp hpres
      obtain ⟨_, _, _⟩ := f
      cases hn
      cases ht
      cases ho
      rfl

end Field

namespace Schema

variable {s t : Schema} {a b id element : TypeId} {fields gs : List Field}

/-! ## The tree of a number -/

/-- The tree of a type. References that do not go to a smaller number, which no well-formed schema
has, are cut off as any. -/
def tree (s : Schema) (id : TypeId) : TypeTree NameId :=
  match s.get? id with
  | none => .any
  | some .null => .null
  | some .boolean => .boolean
  | some .integer => .integer
  | some .real => .real
  | some .text => .text
  | some .any => .any
  | some (.composite (.array element)) =>
    if _ : element.index < id.index then .array (s.tree element) else .any
  | some (.composite (.record fields)) =>
    .record (fun n => .ofField? (Field.named? fields n)) fun n =>
      match Field.named? fields n with
      | none => .null
      | some field => if _ : field.type.index < id.index then s.tree field.type else .any
termination_by id.index

/-- The tree of the type of a field, null if there is no field. -/
def treeOf? (s : Schema) : Option Field → TypeTree NameId
  | none => .null
  | some field => s.tree field.type

/-- The tree of a record of some fields. -/
def recordTree (s : Schema) (fields : List Field) : TypeTree NameId :=
  .record (fun n => .ofField? (Field.named? fields n)) fun n => s.treeOf? (Field.named? fields n)

/-- The tree of a composite type, its parts looked up in the schema. -/
def compositeTree (s : Schema) : Composite → TypeTree NameId
  | .array element => .array (s.tree element)
  | .record fields => s.recordTree fields

@[simp] theorem tree_null : s.tree .null = .null := by rw [tree]; rfl
@[simp] theorem tree_boolean : s.tree .boolean = .boolean := by rw [tree]; rfl
@[simp] theorem tree_integer : s.tree .integer = .integer := by rw [tree]; rfl
@[simp] theorem tree_real : s.tree .real = .real := by rw [tree]; rfl
@[simp] theorem tree_text : s.tree .text = .text := by rw [tree]; rfl
@[simp] theorem tree_any : s.tree .any = .any := by rw [tree]; rfl

theorem tree_array (hs : s.WellFormed) (h : s.get? id = some (.composite (.array element))) :
    s.tree id = .array (s.tree element) := by
  have hlt : element.index < id.index := hs.element_lt h
  rw [tree, h]
  simp [hlt]

theorem tree_record (hs : s.WellFormed) (h : s.get? id = some (.composite (.record fields))) :
    s.tree id = s.recordTree fields := by
  rw [tree, h]
  simp only [recordTree, TypeTree.record.injEq, true_and]
  funext n
  cases hf : Field.named? fields n with
  | none => rfl
  | some f =>
    have hlt : f.type.index < id.index :=
      hs.field_lt h f (Field.mem_of_named? hf)
    simp [treeOf?, hlt]

theorem tree_composite (hs : s.WellFormed) {c : Composite}
    (h : s.get? id = some (.composite c)) : s.tree id = s.compositeTree c := by
  cases c with
  | array element => exact tree_array hs h
  | record fields => exact tree_record hs h

/-- The tree of a type, its parts looked up in the schema. -/
def typeTree (s : Schema) : DataType → TypeTree NameId
  | .null => .null
  | .boolean => .boolean
  | .integer => .integer
  | .real => .real
  | .text => .text
  | .any => .any
  | .composite c => s.compositeTree c

theorem tree_eq_typeTree (hs : s.WellFormed) {type : DataType} (h : s.get? id = some type) :
    s.tree id = s.typeTree type := by
  cases type with
  | composite c => exact tree_composite hs h
  | _ => rw [tree, h]; rfl

/-- The same type has the same tree. -/
theorem compositeTree_of_same {c d : Composite} (hnd : c.names.Nodup) (h : c.same d) :
    s.compositeTree c = s.compositeTree d := by
  cases c with
  | array element => rw [Composite.same_array_iff.mp h]
  | record fields =>
    obtain ⟨gs, rfl, hp⟩ := Composite.same_record_iff.mp h
    simp only [compositeTree, recordTree, Field.named?_of_perm hnd hp]

/-- A tree that is no array and no record is that of one number only, whatever the schema. -/
theorem tree_eq_primitive_iff (hs : s.WellFormed) (hid : s.Knows id) :
    (s.tree id = .null ↔ id = .null) ∧ (s.tree id = .boolean ↔ id = .boolean) ∧
      (s.tree id = .integer ↔ id = .integer) ∧ (s.tree id = .real ↔ id = .real) ∧
      (s.tree id = .text ↔ id = .text) ∧ (s.tree id = .any ↔ id = .any) := by
  obtain ⟨type, htype⟩ := exists_get? hid
  have hp := get?_primitive_iff s id
  rw [htype] at hp
  cases type with
  | composite c =>
    have ht := tree_composite hs htype
    cases c <;> simp [ht, compositeTree, recordTree] <;> simpa using hp
  | _ =>
    rw [tree, htype]
    simpa using hp

/-! ## Trees do not change as a schema grows -/

theorem treeOf?_congr (h : ∀ f ∈ fields, t.tree f.type = s.tree f.type) (n : NameId) :
    t.treeOf? (Field.named? fields n) = s.treeOf? (Field.named? fields n) := by
  cases hf : Field.named? fields n with
  | none => rfl
  | some f => exact h f (Field.mem_of_named? hf)

theorem tree_of_extends (hs : s.WellFormed) (ht : t.WellFormed) (hst : s.Extends t)
    (hid : s.Knows id) : t.tree id = s.tree id := by
  induction hk : id.index using Nat.strong_induction_on generalizing id with
  | _ k ih =>
    obtain ⟨type, htype⟩ := exists_get? hid
    have htype' := hst.types id type htype
    cases type with
    | composite c =>
      have hparts : ∀ part ∈ c.parts, t.tree part = s.tree part := fun part hpart =>
        ih part.index (hk ▸ hs.parts_lt htype part hpart) (hs.knows_part htype part hpart) rfl
      rw [tree_composite hs htype, tree_composite ht htype']
      cases c with
      | array element => simp [compositeTree, hparts element (by simp [Composite.parts])]
      | record fields =>
        have hfields : ∀ f ∈ fields, t.tree f.type = s.tree f.type := fun f hf =>
          hparts f.type (List.mem_map_of_mem hf)
        simp [compositeTree, recordTree, treeOf?_congr hfields]
    | _ => rw [tree, tree, htype, htype']

/-! ## Trees tell numbers apart -/

/-- Fields of the same presence and the same trees are the same fields, if the trees of their types
tell those apart. -/
theorem perm_of_recordTree_eq (hf : (fields.map (·.name)).Nodup)
    (hg : (gs.map (·.name)).Nodup) (h : s.recordTree fields = s.recordTree gs)
    (hinj : ∀ f ∈ fields, ∀ g ∈ gs, s.tree f.type = s.tree g.type → f.type = g.type) :
    fields.Perm gs := by
  simp only [recordTree, TypeTree.record.injEq] at h
  have hnamed : ∀ n, Field.named? fields n = Field.named? gs n := by
    intro n
    refine Field.option_ext (congrFun h.1 n) (fun f hf g hg => ?_) fun f hf g hg => ?_
    · exact (Field.name_of_named? hf).trans (Field.name_of_named? hg).symm
    · have ht := congrFun h.2 n
      rw [hf, hg] at ht
      exact hinj f (Field.mem_of_named? hf) g (Field.mem_of_named? hg) ht
  refine (List.perm_ext_iff_of_nodup hf.of_map hg.of_map).mpr fun f => ?_
  constructor
  · intro hmem
    have := (Field.named?_eq_some_iff hf).mpr ⟨hmem, rfl⟩
    exact ((Field.named?_eq_some_iff hg).mp ((hnamed f.name) ▸ this)).1
  · intro hmem
    have := (Field.named?_eq_some_iff hg).mpr ⟨hmem, rfl⟩
    exact ((Field.named?_eq_some_iff hf).mp ((hnamed f.name).symm ▸ this)).1

/-- **Canonicity**: the numbers of a well-formed schema stand for different trees. -/
theorem tree_injective (hs : s.WellFormed) (ha : s.Knows a) (hb : s.Knows b)
    (h : s.tree a = s.tree b) : a = b := by
  induction hk : a.index using Nat.strong_induction_on generalizing a b with
  | _ k ih =>
    have hpa := tree_eq_primitive_iff hs ha
    have hpb := tree_eq_primitive_iff hs hb
    obtain ⟨typeA, hA⟩ := exists_get? ha
    obtain ⟨typeB, hB⟩ := exists_get? hb
    cases typeA with
    | composite c =>
      have hparts : ∀ p ∈ c.parts, ∀ q, s.Knows q → s.tree p = s.tree q → p = q :=
        fun p hp q hq hpq =>
          ih p.index (hk ▸ hs.parts_lt hA p hp) (hs.knows_part hA p hp) hq hpq rfl
      have hcA := tree_composite hs hA
      cases typeB with
      | composite d =>
        have hcB := tree_composite hs hB
        refine Schema.same_inj hA hB ?_
        rw [hcA, hcB] at h
        cases c <;> cases d <;> simp only [compositeTree, TypeTree.array.injEq, recordTree,
          reduceCtorEq] at h
        · rename_i p q
          have hq : s.Knows q := hs.knows_element hB
          rw [Composite.same_array_iff, hparts p (by simp [Composite.parts]) q hq h]
        · rename_i fs gs
          refine Composite.same_record_iff.mpr ⟨gs, rfl, ?_⟩
          refine perm_of_recordTree_eq (hs.names_nodup hA) (hs.names_nodup hB) h ?_
          intro f hf g hg
          exact hparts f.type (List.mem_map_of_mem hf) g.type
            (hs.knows_field hB g hg)
      | _ =>
        rw [hcA, tree, hB] at h
        cases c <;> simp [compositeTree, recordTree] at h
    | _ =>
      rw [tree, hA] at h
      simp only at h
      have hprim := get?_primitive_iff s a
      simp only [hA, true_iff] at hprim
      simp_all

end Schema

end JsonLines
