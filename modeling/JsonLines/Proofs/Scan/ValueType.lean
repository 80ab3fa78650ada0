/-
JsonLines.Proofs.Scan.ValueType — the type of a value, told from the value alone.

`Node.typeTree` types a value without a schema: an array has the join of its items' types, an object
the record of its members, all of them required. Whatever schema a value is scanned into, the type
of its image says the same over the texts of names (`Scanned.namedTree_eq`), so that images of one
value in two schemas have types that say the same.
-/
import JsonLines.Proofs.Scan.Parts
import JsonLines.Proofs.Schema.NamedTree

namespace JsonLines

open Json

mutual

/-- The type of a value. -/
def Json.Node.typeTree : Node → TypeTree String
  | .null _ => .null
  | .boolean _ _ => .boolean
  | .number _ numeral => if numeral.isIntegral then .integer else .real
  | .text _ _ => .text
  | .array _ items => .array (itemsTree items)
  | .object _ members =>
    .record (fun name => if (memberTree? name members).isSome then .required else .lacking)
      fun name => (memberTree? name members).getD .null

/-- The join of the types of items. -/
def Json.itemsTree : List Node → TypeTree String
  | [] => .null
  | item :: items => item.typeTree ⊔ itemsTree items

/-- The type of the member of a name. -/
def Json.memberTree? (name : String) : List (Key × Node) → Option (TypeTree String)
  | [] => none
  | (key, node) :: members =>
    if key.name? = some name then some node.typeTree else memberTree? name members

end

variable {s t : Schema} {node : Node} {cell c d : Cell} {items : List Node}
  {members : List (Key × Node)} {cells : List Cell} {id : TypeId} {name : String}

/-! ## Least types over the texts of names -/

/-- The least type that covers some cells is the join of their types. -/
theorem Schema.tree_of_isLUB (h : IsLUB (s.treesOf cells) (s.tree id)) :
    s.tree id = .joinAll (cells.map fun c => s.tree c.type) := by
  refine TypeTree.eq_joinAll_iff.mpr fun u => ?_
  rw [isLUB_le_iff h, List.forall_mem_map]
  constructor
  · intro hu c hc
    exact hu ⟨c, hc, rfl⟩
  · rintro hu _ ⟨c, hc, rfl⟩
    exact hu c hc

/-- It is their join over the texts of names, too. -/
theorem Schema.namedTree_of_isLUB (h : IsLUB (s.treesOf cells) (s.tree id)) :
    s.namedTree id = .joinAll (cells.map fun c => s.namedTree c.type) := by
  rw [Schema.namedTree, Schema.tree_of_isLUB h, TypeTree.relabel_joinAll, List.map_map]
  rfl

/-! ## Members by the texts of their names -/

theorem Schema.fieldNamed?_cons (f : Field) (fields : List Field) (name : String) :
    s.fieldNamed? (f :: fields) name =
      if s.nameId? name = some f.name then some f else s.fieldNamed? fields name := by
  unfold fieldNamed? Field.named?
  cases s.nameId? name with
  | none => simp
  | some n =>
    by_cases h : f.name = n
    · simp [h]
    · simp [h, Ne.symm h]

/-- Registered fields are found like the members that they were registered for. -/
theorem Schema.fieldNamed?_of_perm {fs gs : List Field} (hnd : (fs.map (·.name)).Nodup)
    (hp : fs.Perm gs) (name : String) : s.fieldNamed? fs name = s.fieldNamed? gs name := by
  unfold fieldNamed?
  cases s.nameId? name with
  | none => rfl
  | some n => exact Field.named?_of_perm hnd hp n

theorem ofField?_memberFields {fields : List (NameId × Cell)} {f? : Option Field}
    (h : ∀ f ∈ f?, f ∈ Cell.memberFields fields) :
    Presence.ofField? f? = if f?.isSome then .required else .lacking := by
  cases f? with
  | none => rfl
  | some f =>
    obtain ⟨m, -, rfl⟩ := List.mem_map.mp (h f rfl)
    rfl

theorem Schema.mem_of_fieldNamed? {fields : List Field} {f : Field}
    (h : s.fieldNamed? fields name = some f) : f ∈ fields := by
  obtain ⟨n, -, hn⟩ := Option.bind_eq_some_iff.mp h
  exact Field.mem_of_named? hn

/-- The field of a scanned member is found by the text of its name. -/
theorem ScannedMembers.fieldNamed?_eq {fields : List (NameId × Cell)}
    (ih : ∀ m ∈ members, ∀ {c : Cell}, Scanned s m.2 c → s.namedTree c.type = m.2.typeTree)
    (h : ScannedMembers s members fields) :
    (s.fieldNamed? (Cell.memberFields fields) name).map (fun f => s.namedTree f.type) =
      memberTree? name members := by
  induction members generalizing fields with
  | nil =>
    simp only [ScannedMembers] at h
    rw [h, memberTree?, Cell.memberFields, List.map_nil, Schema.fieldNamed?]
    cases s.nameId? name <;> rfl
  | cons member members ih' =>
    obtain ⟨id, c, cs, text, rfl, hname, hid, hc, hcs⟩ := h
    have hhead := ih member List.mem_cons_self hc
    have htail := ih' (fun m hm => ih m (List.mem_cons_of_mem _ hm)) hcs
    have hiff : s.nameId? name = some id ↔ member.1.name? = some name := by
      rw [Schema.nameId?_eq_some_iff, hid, hname]
    rw [memberTree?, ← htail, ← hhead, Cell.memberFields, List.map_cons, Schema.fieldNamed?_cons]
    by_cases hfirst : member.1.name? = some name
    · rw [if_pos hfirst, if_pos (hiff.mpr hfirst)]
      rfl
    · rw [if_neg hfirst, if_neg (mt hiff.mp hfirst)]
      rfl

/-! ## The type of an image -/

theorem ScannedItems.map_namedTree
    (ih : ∀ item ∈ items, ∀ {c : Cell}, Scanned s item c → s.namedTree c.type = item.typeTree)
    (h : ScannedItems s items cells) :
    TypeTree.joinAll (cells.map fun c => s.namedTree c.type) = itemsTree items := by
  induction items generalizing cells with
  | nil =>
    simp only [ScannedItems] at h
    rw [h]
    rfl
  | cons item items ih' =>
    obtain ⟨c, cs, rfl, hc, hcs⟩ := h
    have hhead := ih item List.mem_cons_self hc
    have htail := ih' (fun i hi => ih i (List.mem_cons_of_mem _ hi)) hcs
    rw [itemsTree, ← hhead, ← htail]
    rfl

/-- **The type of an image is the type of the value**, over the texts of names. -/
theorem Scanned.namedTree_eq (hs : s.WellFormed) (h : Scanned s node cell) :
    s.namedTree cell.type = node.typeTree := by
  induction node generalizing cell with
  | array span items ih =>
    obtain ⟨type, cells, element, rfl, hitems, hget, hlub⟩ := h
    rw [Cell.type, Schema.namedTree_array hs hget, Node.typeTree, Schema.namedTree_of_isLUB hlub,
      hitems.map_namedTree fun i hi _ => ih i hi]
  | object span members ih =>
    obtain ⟨type, fields, registered, rfl, hmembers, hnd, hget, hperm⟩ := h
    have hnd' : ((Cell.memberFields fields).map (·.name)).Nodup := by
      simpa [Cell.memberFields, Function.comp_def] using hnd
    have hfound : ∀ name, s.fieldNamed? registered name =
        s.fieldNamed? (Cell.memberFields fields) name := fun name =>
      (Schema.fieldNamed?_of_perm hnd' hperm name).symm
    rw [Cell.type, Schema.namedTree_record hs hget, Node.typeTree]
    simp only [hfound, ← hmembers.fieldNamed?_eq (fun m hm _ => ih m hm), Option.isSome_map,
      TypeTree.record.injEq]
    constructor <;> funext name
    · exact ofField?_memberFields fun f hf => Schema.mem_of_fieldNamed? hf
    · cases s.fieldNamed? (Cell.memberFields fields) name <;> rfl
  | number span numeral =>
    simp only [Scanned] at h
    rw [h, Node.typeTree, Cell.type]
    cases numeral.isIntegral <;> simp
  | _ =>
    simp only [Scanned] at h
    rw [h, Node.typeTree]
    simp [Cell.type]

/-- Images of one value have types that say the same, whatever their schemas. -/
theorem Scanned.namedTree_eq_namedTree (hs : s.WellFormed) (ht : t.WellFormed)
    (h : Scanned s node c) (h' : Scanned t node d) :
    t.namedTree d.type = s.namedTree c.type :=
  (h'.namedTree_eq ht).trans (h.namedTree_eq hs).symm

end JsonLines
