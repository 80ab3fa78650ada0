/-
JsonLines.Proofs.Scan.Conformance — which values are of which types.

`Conforms` is the meaning of types for readers of a dataset: it is defined by recursion on the
value and mentions neither scanning nor unions. The main statement, `conforms_iff`, says that the
type of a scanned cell is the least one that its value conforms to: a value conforms to exactly the
types that cover the type of its cell.
-/
import JsonLines.Proofs.Scan.Scanned
import JsonLines.Proofs.Schema.UnionLattice

namespace JsonLines

mutual

/-- The value is one of those that the type describes. -/
def Conforms (s : Schema) : Json.Node → TypeId → Prop
  | .null _, _ => True
  | .boolean _ _, type => type = .any ∨ type = .boolean
  | .number _ numeral, type => type = .any ∨ type = .real ∨ type = .integer ∧ numeral.isIntegral
  | .text _ _, type => type = .any ∨ type = .text
  | .array _ items, type => type = .any ∨ ∃ element,
    s.get? type = some (.composite (.array element)) ∧ ItemsConform s items element
  | .object _ members, type => type = .any ∨ ∃ fields,
    s.get? type = some (.composite (.record fields)) ∧ MembersConform s members fields ∧
      ∀ f ∈ fields, f.optional = false →
        ∃ m ∈ members, ∃ name, m.1.name? = some name ∧ s.name? f.name = some name

/-- Every item is one of those that the type describes. -/
def ItemsConform (s : Schema) : List Json.Node → TypeId → Prop
  | [], _ => True
  | item :: items, type => Conforms s item type ∧ ItemsConform s items type

/-- Every member is a field and conforms to the type of the field. -/
def MembersConform (s : Schema) : List (Json.Key × Json.Node) → List Field → Prop
  | [], _ => True
  | (key, node) :: members, fields =>
    (∃ f ∈ fields, ∃ name, key.name? = some name ∧ s.name? f.name = some name ∧
      Conforms s node f.type) ∧ MembersConform s members fields

end

variable {s : Schema} {node : Json.Node} {cell : Cell} {type element : TypeId}

/-! ## Items -/

theorem itemsConform_iff {items : List Json.Node} {cells : List Cell}
    (ih : ∀ item ∈ items, ∀ {cell : Cell}, Scanned s item cell →
      (Conforms s item type ↔ s.tree cell.type ≤ s.tree type))
    (h : ScannedItems s items cells) :
    ItemsConform s items type ↔ ∀ c ∈ cells, s.tree c.type ≤ s.tree type := by
  induction items generalizing cells with
  | nil =>
    simp only [ScannedItems] at h
    simp [ItemsConform, h]
  | cons item items ih' =>
    obtain ⟨c, cs, rfl, hc, hcs⟩ := h
    rw [ItemsConform, ih item List.mem_cons_self hc,
      ih' (fun i hi => ih i (List.mem_cons_of_mem _ hi)) hcs, List.forall_mem_cons]

/-! ## Members -/

/-- Members against fields, by the numbers of their names. -/
theorem membersConform_iff {members : List (Json.Key × Json.Node)}
    {cells : List (NameId × Cell)} {fields : List Field}
    (ih : ∀ m ∈ members, ∀ f ∈ fields, ∀ {cell : Cell}, Scanned s m.2 cell →
      (Conforms s m.2 f.type ↔ s.tree cell.type ≤ s.tree f.type))
    (h : ScannedMembers s members cells) :
    MembersConform s members fields ↔
      ∀ c ∈ cells, ∃ f ∈ fields, f.name = c.1 ∧ s.tree c.2.type ≤ s.tree f.type := by
  induction members generalizing cells with
  | nil =>
    simp only [ScannedMembers] at h
    simp [MembersConform, h]
  | cons m members ih' =>
    obtain ⟨id, c, cs, name, rfl, hname, hid, hc, hcs⟩ := h
    rw [MembersConform, ih' (fun i hi => ih i (List.mem_cons_of_mem _ hi)) hcs,
      List.forall_mem_cons]
    refine and_congr_left' (exists_congr fun f => and_congr_right fun hf => ?_)
    rw [← ih m List.mem_cons_self f hf hc]
    constructor
    · rintro ⟨name', hname', hf', hconf⟩
      have heq : name = name' := Option.some.inj (hname.symm.trans hname')
      exact ⟨Schema.name_inj (heq ▸ hf') hid, hconf⟩
    · rintro ⟨hfid, hconf⟩
      exact ⟨name, hname, hfid ▸ hid, hconf⟩

theorem required_iff {members : List (Json.Key × Json.Node)} {cells : List (NameId × Cell)}
    (h : ScannedMembers s members cells) (n : NameId) :
    (∃ m ∈ members, ∃ name, m.1.name? = some name ∧ s.name? n = some name) ↔
      ∃ c ∈ cells, c.1 = n := by
  induction members generalizing cells with
  | nil =>
    simp only [ScannedMembers] at h
    simp [h]
  | cons m members ih =>
    obtain ⟨id, c, cs, name, rfl, hname, hid, -, hcs⟩ := h
    rw [List.exists_mem_cons_iff, List.exists_mem_cons_iff, ih hcs]
    refine or_congr_left ?_
    constructor
    · rintro ⟨name', hname', hn⟩
      have heq : name = name' := Option.some.inj (hname.symm.trans hname')
      exact Schema.name_inj hid (heq ▸ hn)
    · rintro rfl
      exact ⟨name, hname, hid⟩

theorem named?_memberFields_eq_some_iff {cells : List (NameId × Cell)}
    (hnd : (cells.map (·.1)).Nodup) {n : NameId} {f : Field} :
    Field.named? (Cell.memberFields cells) n = some f ↔
      ∃ c ∈ cells, c.1 = n ∧ f = ⟨c.1, c.2.type, false⟩ := by
  have hnd' : ((Cell.memberFields cells).map (·.name)).Nodup := by
    simpa [Cell.memberFields, Function.comp_def] using hnd
  rw [Field.named?_eq_some_iff hnd']
  constructor
  · rintro ⟨hf, rfl⟩
    obtain ⟨c, hc, rfl⟩ := List.mem_map.mp hf
    exact ⟨c, hc, rfl, rfl⟩
  · rintro ⟨c, hc, rfl, rfl⟩
    exact ⟨List.mem_map_of_mem hc, rfl⟩

theorem named?_memberFields_eq_none_iff {cells : List (NameId × Cell)} {n : NameId} :
    Field.named? (Cell.memberFields cells) n = none ↔ ∀ c ∈ cells, c.1 ≠ n := by
  rw [Field.named?_eq_none_iff]
  simp only [Cell.memberFields, List.map_map, List.mem_map, Function.comp_apply, not_exists,
    not_and, ne_eq]

theorem recordTree_le_iff {fs gs : List Field} :
    s.recordTree fs ≤ s.recordTree gs ↔ ∀ n,
      (Presence.ofField? (Field.named? fs n)).join (.ofField? (Field.named? gs n)) =
        .ofField? (Field.named? gs n) ∧
      s.treeOf? (Field.named? fs n) ≤ s.treeOf? (Field.named? gs n) := by
  unfold Schema.recordTree
  rw [TypeTree.record_le_iff]
  simp only [TypeTree.record.injEq, reduceCtorEq, or_false]
  constructor
  · rintro ⟨_, _, ⟨rfl, rfl⟩, h⟩
    exact h
  · intro h
    exact ⟨_, _, ⟨rfl, rfl⟩, h⟩

/-- A record covers the record of some cells when each cell has a field whose type covers its own
and each field without a cell is optional. -/
theorem recordTree_memberFields_le_iff {cells : List (NameId × Cell)} {fields : List Field}
    (hnd : (cells.map (·.1)).Nodup) (hnd' : (fields.map (·.name)).Nodup) :
    s.recordTree (Cell.memberFields cells) ≤ s.recordTree fields ↔
      (∀ c ∈ cells, ∃ f ∈ fields, f.name = c.1 ∧ s.tree c.2.type ≤ s.tree f.type) ∧
        ∀ f ∈ fields, f.optional = false → ∃ c ∈ cells, c.1 = f.name := by
  rw [recordTree_le_iff]
  constructor
  · intro h
    constructor
    · intro c hc
      obtain ⟨hp, ht⟩ := h c.1
      rw [(named?_memberFields_eq_some_iff hnd).mpr ⟨c, hc, rfl, rfl⟩] at hp ht
      cases hf : Field.named? fields c.1 with
      | none => simp [hf, Presence.ofField?, Presence.join] at hp
      | some f =>
        rw [hf] at ht
        exact ⟨f, Field.mem_of_named? hf, Field.name_of_named? hf, ht⟩
    · intro f hf ho
      by_contra hno
      have hp := (h f.name).1
      rw [named?_memberFields_eq_none_iff.mpr fun c hc heq => hno ⟨c, hc, heq⟩,
        (Field.named?_eq_some_iff hnd').mpr ⟨hf, rfl⟩] at hp
      simp [Presence.ofField?, Presence.join, ho] at hp
  · rintro ⟨hcells, hreq⟩ n
    cases hc : Field.named? (Cell.memberFields cells) n with
    | none =>
      refine ⟨?_, TypeTree.null_le _⟩
      cases hf : Field.named? fields n with
      | none => rfl
      | some f =>
        cases ho : f.optional with
        | true => simp [Presence.ofField?, Presence.join, ho]
        | false =>
          obtain ⟨c, hmem, hname⟩ := hreq f (Field.mem_of_named? hf) ho
          exact absurd (hname.trans (Field.name_of_named? hf))
            (named?_memberFields_eq_none_iff.mp hc c hmem)
    | some g =>
      obtain ⟨c, hmem, rfl, rfl⟩ := (named?_memberFields_eq_some_iff hnd).mp hc
      obtain ⟨f, hf, hname, hle⟩ := hcells c hmem
      rw [(Field.named?_eq_some_iff hnd').mpr ⟨hf, hname⟩]
      exact ⟨by cases ho : f.optional <;> simp [Presence.ofField?, Presence.join, ho], hle⟩

/-! ## The least type -/

/-- An array conforms to what covers the least type that covers its items. -/
theorem conforms_array_iff {span : Span} {items : List Json.Node} {cells : List Cell}
    {own : TypeId} (hs : s.WellFormed) (htype : s.Knows type)
    (hget : s.get? own = some (.composite (.array element)))
    (hlub : IsLUB (s.treesOf cells) (s.tree element))
    (hitems : ∀ e, s.Knows e →
      (ItemsConform s items e ↔ ∀ c ∈ cells, s.tree c.type ≤ s.tree e)) :
    Conforms s (.array span items) type ↔ s.tree own ≤ s.tree type := by
  obtain ⟨-, -, -, -, -, hany⟩ := Schema.tree_eq_primitive_iff hs htype
  rw [Conforms, Schema.tree_array hs hget, TypeTree.array_le_iff, or_comm, hany]
  refine or_congr_left ?_
  constructor
  · rintro ⟨e, hget', hconf⟩
    refine ⟨s.tree e, Schema.tree_array hs hget', (isLUB_le_iff hlub).mpr ?_⟩
    rintro _ ⟨c, hc, rfl⟩
    exact (hitems e (hs.knows_element hget')).mp hconf c hc
  · rintro ⟨b, hb, hle⟩
    obtain ⟨e, hget', rfl⟩ := Schema.exists_array_of_tree_eq hs htype hb
    refine ⟨e, hget', (hitems e (hs.knows_element hget')).mpr ?_⟩
    intro c hc
    exact (isLUB_le_iff hlub).mp hle ⟨c, hc, rfl⟩

/-- An object conforms to what covers the record of its members. -/
theorem conforms_object_iff {span : Span} {members : List (Json.Key × Json.Node)}
    {cells : List (NameId × Cell)} {own : TypeId} {ownFields : List Field} (hs : s.WellFormed)
    (htype : s.Knows type) (hget : s.get? own = some (.composite (.record ownFields)))
    (hperm : (Cell.memberFields cells).Perm ownFields)
    (hmembers : ∀ fields, s.get? type = some (.composite (.record fields)) →
      (MembersConform s members fields ∧ (∀ f ∈ fields, f.optional = false →
        ∃ m ∈ members, ∃ name, m.1.name? = some name ∧ s.name? f.name = some name) ↔
      s.recordTree (Cell.memberFields cells) ≤ s.recordTree fields)) :
    Conforms s (.object span members) type ↔ s.tree own ≤ s.tree type := by
  obtain ⟨-, -, -, -, -, hany⟩ := Schema.tree_eq_primitive_iff hs htype
  have hown : s.tree own = s.recordTree (Cell.memberFields cells) := by
    rw [Schema.tree_record hs hget, Schema.recordTree, Schema.recordTree]
    simp only [Field.named?_of_perm (hs.names_nodup hget) hperm.symm]
  rw [Conforms, hown, ← hany]
  constructor
  · rintro (heq | ⟨fields, hget', hconf⟩)
    · rw [heq]
      exact TypeTree.le_any _
    · rw [Schema.tree_record hs hget']
      exact (hmembers fields hget').mp hconf
  · intro hle
    rcases TypeTree.record_le_iff.mp hle with ⟨q, b, htree, -⟩ | heq
    · obtain ⟨fields, hget', -⟩ := Schema.exists_record_of_tree_eq hs htype htree
      rw [Schema.tree_record hs hget'] at hle
      exact Or.inr ⟨fields, hget', (hmembers fields hget').mpr hle⟩
    · exact Or.inl heq

/-- **The type of a scanned value is principal**: the value conforms to exactly the types that
cover it. -/
theorem conforms_iff (hs : s.WellFormed) (htype : s.Knows type) (h : Scanned s node cell) :
    Conforms s node type ↔ s.tree cell.type ≤ s.tree type := by
  induction node generalizing cell type with
  | null span =>
    simp only [Scanned] at h
    simp [Conforms, h, Cell.type, TypeTree.null_le]
  | boolean span value =>
    obtain ⟨-, hboolean, -, -, -, hany⟩ := Schema.tree_eq_primitive_iff hs htype
    simp only [Scanned] at h
    rw [Conforms, h, Cell.type, Schema.tree_boolean, TypeTree.boolean_le_iff, hboolean, hany,
      or_comm]
  | number span numeral =>
    obtain ⟨-, -, hinteger, hreal, -, hany⟩ := Schema.tree_eq_primitive_iff hs htype
    simp only [Scanned] at h
    rw [Conforms, h, Cell.type]
    cases hi : numeral.isIntegral
    · simp [TypeTree.real_le_iff, hreal, hany, or_comm]
    · simp [TypeTree.integer_le_iff, hinteger, hreal, hany, or_comm, or_left_comm]
  | text span raw =>
    obtain ⟨-, -, -, -, htext, hany⟩ := Schema.tree_eq_primitive_iff hs htype
    simp only [Scanned] at h
    rw [Conforms, h, Cell.type, Schema.tree_text, TypeTree.text_le_iff, htext, hany, or_comm]
  | array span items ih =>
    obtain ⟨own, cells, element, rfl, hitems, hget, hlub⟩ := h
    refine conforms_array_iff hs htype hget hlub fun e he => itemsConform_iff ?_ hitems
    intro item hitem cell hcell
    exact ih item hitem he hcell
  | object span members ih =>
    obtain ⟨own, cells, ownFields, rfl, hmembers, hnd, hget, hperm⟩ := h
    refine conforms_object_iff hs htype hget hperm fun fields hget' => ?_
    rw [recordTree_memberFields_le_iff hnd (hs.names_nodup hget'), membersConform_iff ?_ hmembers]
    · simp only [required_iff hmembers]
    · intro m hm f hf cell hcell
      exact ih m hm (hs.knows_field hget' f hf) hcell

end JsonLines
