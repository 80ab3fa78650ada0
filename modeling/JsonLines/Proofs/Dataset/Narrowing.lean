/-
JsonLines.Proofs.Dataset.Narrowing — the type of a selection tells which rows were selected, and no
more.

Two selections are gathered into two schemas, where names and types have other numbers, so their
types are compared as trees over the texts of names. Such a tree is the join of the types that the
selected rows have in the view (`typeTree_select`), and a join does not depend on the order of what
is joined, nor on how often it is: the same rows have the same type, and fewer rows a narrower one.
That the join is what the union of types computes, in every schema that knows the two, is
`Schema.namedTree_union`.
-/
import JsonLines.Proofs.Dataset.Selecting

namespace JsonLines

/-- The names of a union are those of the schema. -/
theorem Schema.nameId?_union (s : Schema) (a b : TypeId) : (s.union a b).2.nameId? = s.nameId? := by
  funext name
  refine Option.ext fun n => ?_
  rw [nameId?_eq_some_iff, nameId?_eq_some_iff, name?, names_union, name?]

/-- **The union of two types is their join**, over the texts of names too. -/
theorem Schema.namedTree_union {s : Schema} {a b : TypeId} (hs : s.WellFormed) (ha : s.Knows a)
    (hb : s.Knows b) :
    (s.union a b).2.namedTree (s.union a b).1 = s.namedTree a ⊔ s.namedTree b := by
  have hjoin := (joins_union hs ha hb).tree_eq
  unfold namedTree
  rw [hjoin, nameId?_union, TypeTree.sup_def, TypeTree.sup_def, TypeTree.relabel_join]

/-- What is joined from less is covered by what is joined from more. -/
theorem TypeTree.joinAll_le_joinAll {N : Type} {trees trees' : List (TypeTree N)}
    (h : ∀ t ∈ trees, t ∈ trees') : joinAll trees ≤ joinAll trees' :=
  joinAll_le_iff.mpr fun t ht => le_joinAll (h t ht)

namespace View

variable {root v w w₁ w₂ : View} {indices I J : List Nat} {i : Nat}

/-! ## The type of a selection -/

theorem typeTree_eq (hv : v.Sound) :
    v.typeTree = .joinAll (v.rows.toList.map fun row => v.schema.namedTree row.type) :=
  Schema.namedTree_of_isLUB hv.least

/-- **The type of a selection** is the join of the types that the selected rows have. -/
theorem typeTree_select (hv : v.Sound) (h : v.select indices = .ok w) :
    w.typeTree = .joinAll (indices.map fun i => v.schema.namedTree (v.rowAt i).type) := by
  rw [(regathered_select hv h).typeTree_eq hv, List.map_map]
  rfl

/-- Fewer rows have a type that is covered by that of more rows. -/
theorem typeTree_select_le (hv : v.Sound) (h₁ : v.select I = .ok w₁) (h₂ : v.select J = .ok w₂)
    (h : ∀ i ∈ I, i ∈ J) : w₁.typeTree ≤ w₂.typeTree := by
  rw [typeTree_select hv h₁, typeTree_select hv h₂]
  refine TypeTree.joinAll_le_joinAll fun t ht => ?_
  obtain ⟨i, hi, rfl⟩ := List.mem_map.mp ht
  exact List.mem_map.mpr ⟨i, h i hi, rfl⟩

/-- Selected rows have a type that is covered by that of all rows. -/
theorem typeTree_select_le_self (hv : v.Sound) (h : v.select indices = .ok w) :
    w.typeTree ≤ v.typeTree := by
  rw [typeTree_select hv h, typeTree_eq hv]
  refine TypeTree.joinAll_le_joinAll ?_
  intro t ht
  obtain ⟨i, hi, rfl⟩ := List.mem_map.mp ht
  have hrow := getElem?_rows ((select_eq_ok_iff.mp h).1 i hi)
  exact List.mem_map.mpr ⟨v.rowAt i, Array.mem_toList_iff.mpr (Array.mem_of_getElem? hrow), rfl⟩

/-! ## Selections with the same rows, and with fewer -/

/-- The union of the type of the first view and that of the second is that of the second. -/
structure Narrower (v w : View) : Prop where
  /-- It is so for the types as trees. -/
  join_eq : v.typeTree ⊔ w.typeTree = w.typeTree
  /-- It is so for the numbers of the types in every schema that knows them. -/
  union_eq : ∀ (s : Schema) (a b : TypeId), s.WellFormed → s.Knows a → s.Knows b →
    s.namedTree a = v.typeTree → s.namedTree b = w.typeTree →
      (s.union a b).2.namedTree (s.union a b).1 = w.typeTree

theorem narrower_of_le (h : v.typeTree ≤ w.typeTree) : v.Narrower w where
  join_eq := sup_eq_right.mpr h
  union_eq s a b hs ha hb hva hwb := by
    rw [Schema.namedTree_union hs ha hb, hva, hwb]
    exact sup_eq_right.mpr h

/-- How the types of selections of rows go with which rows are selected. -/
structure SelectionTypes (v : View) : Prop where
  /-- The same rows have the same type, in whatever order and however often they are selected. -/
  same : ∀ I J w₁ w₂, v.select I = .ok w₁ → v.select J = .ok w₂ → (∀ i, i ∈ I ↔ i ∈ J) →
    w₁.typeTree = w₂.typeTree
  /-- Fewer rows have a narrower type. -/
  narrower : ∀ I J w₁ w₂, v.select I = .ok w₁ → v.select J = .ok w₂ → (∀ i ∈ I, i ∈ J) →
    w₁.Narrower w₂
  /-- No selection has a wider type than the view. -/
  covered : ∀ I w, v.select I = .ok w → w.Narrower v

/-- **The type of a selection depends on the selected rows alone, and narrows with them**, over
every chain of views. -/
theorem selection_types {source : ByteSource} {config : Config}
    (hroot : load source config = .ok root) (hchain : root.Chain v) : v.SelectionTypes where
  same I J w₁ w₂ h₁ h₂ h := by
    have hv : v.Sound := sound_chain hroot hchain
    refine le_antisymm ?_ ?_
    · exact typeTree_select_le hv h₁ h₂ fun i hi => (h i).mp hi
    · exact typeTree_select_le hv h₂ h₁ fun i hi => (h i).mpr hi
  narrower I J w₁ w₂ h₁ h₂ h :=
    narrower_of_le (typeTree_select_le (sound_chain hroot hchain) h₁ h₂ h)
  covered I w h := narrower_of_le (typeTree_select_le_self (sound_chain hroot hchain) h)

/-- Three records whose selections know their fields in different orders. -/
def turnedRecords : ByteSource :=
  .ofString "\x7b\"a\":1,\"b\":null\x7d\n\x7b\"b\":[true],\"a\":null\x7d\n\x7b\"c\":2\x7d\n"

theorem selection_types_turnedRecords : ∃ root w₁ w₂, load turnedRecords {} = .ok root ∧
    root.select [1, 2, 1] = .ok w₁ ∧ root.select [2, 1] = .ok w₂ ∧
      w₁.names? = some ["a", "b"] ∧ w₂.names? = some ["b", "a"] ∧ root.SelectionTypes := by
  have hrun : ((load turnedRecords {}).toOption.bind fun root =>
      (root.select [1, 2, 1]).toOption.bind fun w₁ => (root.select [2, 1]).toOption.map fun w₂ =>
        (w₁.names?, w₂.names?)) = some (some ["a", "b"], some ["b", "a"]) := by
    decide +kernel
  obtain ⟨root, hload, hrun⟩ := Option.bind_eq_some_iff.mp hrun
  obtain ⟨w₁, hfirst, hrun⟩ := Option.bind_eq_some_iff.mp hrun
  obtain ⟨w₂, hsecond, hnames⟩ := Option.map_eq_some_iff.mp hrun
  obtain ⟨hnames₁, hnames₂⟩ := Prod.mk.inj hnames
  have hroot := eq_ok_of_toOption hload
  exact ⟨root, w₁, w₂, hroot, eq_ok_of_toOption hfirst, eq_ok_of_toOption hsecond, hnames₁, hnames₂,
    selection_types hroot .refl⟩

end View

end JsonLines
