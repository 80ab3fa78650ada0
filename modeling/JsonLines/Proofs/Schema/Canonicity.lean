/-
JsonLines.Proofs.Schema.Canonicity — numbers are canonical and permanent.

Whatever was done to a schema, failed scans included, its numbers tell types and names apart: its
indexes lead from the key of a type and from the text of a name back to the one number where it
stands, and to nothing else; two numbers are equal when the types that they stand for are, records
taken as sets of fields at every level (`recordTree_eq_iff`), and nothing that is done later moves a
type, the order of its fields or a name. So comparing numbers compares types.
-/
import JsonLines.Proofs.Schema.Reachable

namespace JsonLines

namespace Schema

variable {s t : Schema} {a b id : TypeId} {c : Composite} {fs gs : List Field} {name : String}
  {n : NameId}

/-! ## Names -/

/-- The numbers of names are those below the number of names. -/
theorem isSome_name?_iff : (s.name? n).isSome ↔ n.index < s.names.size := by
  rw [name?, isSome_getElem?]

/-! ## Records as sets of fields -/

/-- The fields of a record, each with its name, its type and whether it is optional. -/
def fieldTrees (s : Schema) (fields : List Field) : Set (NameId × TypeTree NameId × Bool) :=
  {entry | ∃ f ∈ fields, (f.name, s.tree f.type, f.optional) = entry}

/-- What a record says of a name. -/
def about? (s : Schema) (f? : Option Field) : Option (TypeTree NameId × Bool) :=
  f?.map fun f => (s.tree f.type, f.optional)

theorem about?_eq_iff (f? g? : Option Field) : s.about? f? = s.about? g? ↔
    Presence.ofField? f? = .ofField? g? ∧ s.treeOf? f? = s.treeOf? g? := by
  cases f? with
  | none =>
    cases g? with
    | none => simp [about?]
    | some g => exact iff_of_false (by simp [about?]) fun h => Presence.ofField?_ne_lacking g h.1.symm
  | some f =>
    cases g? with
    | none => exact iff_of_false (by simp [about?]) fun h => Presence.ofField?_ne_lacking f h.1
    | some g =>
      rw [Presence.ofField?_eq_ofField?_iff, and_comm]
      simp [about?, treeOf?]

theorem mem_fieldTrees_iff (hnd : (fs.map (·.name)).Nodup) {u : TypeTree NameId} {o : Bool} :
    (n, u, o) ∈ s.fieldTrees fs ↔ s.about? (Field.named? fs n) = some (u, o) := by
  simp only [fieldTrees, Set.mem_ofPred_eq, Prod.mk.injEq, about?, Option.map_eq_some_iff,
    Field.named?_eq_some_iff hnd]
  constructor
  · rintro ⟨f, hf, hname, htree, ho⟩
    exact ⟨f, ⟨hf, hname⟩, htree, ho⟩
  · rintro ⟨f, ⟨hf, hname⟩, htree, ho⟩
    exact ⟨f, hf, hname, htree, ho⟩

/-- **Records unfold to the same tree when they are the same sets of fields.** -/
theorem recordTree_eq_iff (hf : (fs.map (·.name)).Nodup) (hg : (gs.map (·.name)).Nodup) :
    s.recordTree fs = s.recordTree gs ↔ s.fieldTrees fs = s.fieldTrees gs := by
  have hentries : s.recordTree fs = s.recordTree gs ↔
      ∀ n, s.about? (Field.named? fs n) = s.about? (Field.named? gs n) := by
    simp only [recordTree, TypeTree.record.injEq, funext_iff, about?_eq_iff, forall_and]
  rw [hentries, Set.ext_iff]
  constructor
  · rintro h ⟨n, u, o⟩
    rw [mem_fieldTrees_iff hf, mem_fieldTrees_iff hg, h n]
  · intro h n
    refine Option.ext fun entry => ?_
    obtain ⟨u, o⟩ := entry
    rw [← mem_fieldTrees_iff hf, ← mem_fieldTrees_iff hg]
    exact h (n, u, o)

/-! ## What every schema that comes about has -/

/-- The numbers of a schema are canonical, and stay so. -/
structure Canonical (s : Schema) : Prop where
  /-- A type refers to types before it. -/
  parts_lt : ∀ id c, s.get? id = some (.composite c) → ∀ part ∈ c.parts, part.index < id.index
  /-- The index leads from the key of each composite type back to exactly its number, and it has no
  other keys. -/
  lookup_index_iff : ∀ key id, s.index.lookup key = some id ↔
    ∃ c, s.get? id = some (.composite c) ∧ c.key = key
  /-- Keys tell composite types apart, records as sets of fields. -/
  key_eq_iff : ∀ a b c d, s.get? a = some (.composite c) → s.get? b = some (.composite d) →
    (c.key = d.key ↔ a = b)
  /-- The search for a type gives the number where it stands. -/
  find?_iff : ∀ c id, s.find? c = some id ↔ ∃ d, s.get? id = some (.composite d) ∧ c.same d
  /-- Numbers are equal when the types unfold to the same tree. -/
  eq_iff : ∀ a b, s.Knows a → s.Knows b → (a = b ↔ s.tree a = s.tree b)
  /-- In trees records are sets of fields. -/
  record_iff : ∀ a b fs gs, s.get? a = some (.composite (.record fs)) →
    s.get? b = some (.composite (.record gs)) →
      (s.tree a = s.tree b ↔ s.fieldTrees fs = s.fieldTrees gs)
  /-- The index of the names leads from each name back to exactly its number, and it has no other
  names: names and their numbers are inverse to each other. -/
  lookup_nameIndex_iff : ∀ name n, s.nameIndex.lookup name = some n ↔ s.name? n = some name
  /-- The numbers of names have no gaps. -/
  isSome_name?_iff : ∀ n, (s.name? n).isSome ↔ n.index < s.names.size
  /-- What is done later keeps every type, with the order of its fields, every name and every tree
  at its number. -/
  permanent : ∀ t, Later s t → s.Extends t ∧ ∀ id, s.Knows id → t.tree id = s.tree id
  /-- What is done later keeps what the indexes hold. -/
  indexed_later : ∀ t, Later s t →
    (∀ key id, s.index.lookup key = some id → t.index.lookup key = some id) ∧
      ∀ name n, s.nameIndex.lookup name = some n → t.nameIndex.lookup name = some n

/-- **Numbers are canonical and permanent** in every schema that comes about. -/
theorem canonical_of_reachable (hs : s.Reachable) : s.Canonical where
  parts_lt _ _ := hs.wellFormed.parts_lt
  lookup_index_iff _ _ := lookup_index_iff
  key_eq_iff a b c d ha hb := by
    constructor
    · intro h
      exact same_inj ha hb (Composite.key_eq_key_iff.mp h)
    · rintro rfl
      cases ha.symm.trans hb
      rfl
  find?_iff _ _ := find?_eq_some_iff
  eq_iff a b ha hb := by
    constructor
    · rintro rfl
      rfl
    · exact tree_injective hs.wellFormed ha hb
  record_iff a b fs gs ha hb := by
    have hwf := hs.wellFormed
    rw [tree_record hwf ha, tree_record hwf hb]
    exact recordTree_eq_iff (hwf.names_nodup ha) (hwf.names_nodup hb)
  lookup_nameIndex_iff name n := s.nameIndex_inStep name n
  isSome_name?_iff _ := isSome_name?_iff
  permanent t ht := by
    obtain ⟨hwf, hext⟩ := Later.extends ht hs.wellFormed
    exact ⟨hext, fun id hid => tree_of_extends hs.wellFormed hwf hext hid⟩
  indexed_later t ht := by
    have hext := (Later.extends ht hs.wellFormed).2
    constructor
    · intro key id h
      obtain ⟨c, hget, hkey⟩ := lookup_index_iff.mp h
      exact lookup_index_iff.mpr ⟨c, hext.types _ _ hget, hkey⟩
    · intro name n h
      exact nameId?_eq_some_iff.mpr (hext.names _ _ (nameId?_eq_some_iff.mp h))

/-- What a scan leaves behind that fails at the second of two objects. -/
def leftover : Schema :=
  (Scanner.scan {} (.ofString "[\x7b\"a\":[1]\x7d,\x7b\"b\":2,\"b\":3\x7d]") .empty ⟨0, 25⟩).2

theorem canonical_of_reachable_leftover :
    leftover.Reachable ∧ leftover.discovered = 2 ∧ leftover.names.size = 2 ∧
      leftover.Canonical := by
  have hs : leftover.Reachable := .single (.scan .empty {} _ ⟨0, 25⟩)
  exact ⟨hs, by decide +kernel, by decide +kernel, canonical_of_reachable hs⟩

end Schema

end JsonLines
