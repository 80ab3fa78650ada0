/-
JsonLines.Proofs.Scan.Parts — the parts of scanned cells.

The cells inside the image of a value are the images of the values inside it, in both directions
(`Scanned.part`, `Scanned.exists_part`). An outline is what a tree of cells looks like without the
schema: its shape, what stands at each value, and what labels each member. Two images of the same
value have the same outline of spans and names, whatever their schemas.
-/
import JsonLines.Proofs.Scan.Scanned

namespace JsonLines

/-- The first cell is the second one or is inside it. -/
inductive Cell.Part (c : Cell) : Cell → Prop where
  | self : Part c c
  | item {span : Span} {type : TypeId} {cells : List Cell} {d : Cell} : d ∈ cells → Part c d →
    Part c (.array span type cells)
  | member {span : Span} {type : TypeId} {members : List (NameId × Cell)} {name : NameId}
    {d : Cell} : (name, d) ∈ members → Part c d → Part c (.record span type members)

theorem Cell.part_of_mem_elements {cell c : Cell} (h : c ∈ cell.elements) : c.Part cell := by
  cases cell with
  | array span type cells => exact .item h .self
  | leaf => simp [elements] at h
  | record => simp [elements] at h

theorem Cell.part_of_member? {cell c : Cell} {id : NameId} (h : cell.member? id = some c) :
    c.Part cell := by
  unfold member? at h
  obtain ⟨m, hfind, rfl⟩ := Option.map_eq_some_iff.mp h
  have hmem := List.mem_of_find?_eq_some hfind
  cases cell with
  | record span type members => exact .member hmem .self
  | leaf => simp [members] at hmem
  | array => simp [members] at hmem

/-- The shape of a value, with something at each value and a label at each member. -/
inductive Outline (α ν : Type) where
  | leaf (place : α)
  | array (place : α) (items : List (Outline α ν))
  | record (place : α) (members : List (ν × Outline α ν))

section

variable {α ν : Type}

mutual

/-- The outline of a cell. -/
def Cell.outline (place : Span → TypeId → α) (label : NameId → ν) : Cell → Outline α ν
  | .leaf span type => .leaf (place span type)
  | .array span type cells => .array (place span type) (outlines place label cells)
  | .record span type members => .record (place span type) (outlinesOf place label members)

/-- The outlines of items. -/
def Cell.outlines (place : Span → TypeId → α) (label : NameId → ν) :
    List Cell → List (Outline α ν)
  | [] => []
  | cell :: cells => outline place label cell :: outlines place label cells

/-- The outlines of members. -/
def Cell.outlinesOf (place : Span → TypeId → α) (label : NameId → ν) :
    List (NameId × Cell) → List (ν × Outline α ν)
  | [] => []
  | (name, cell) :: members =>
    (label name, outline place label cell) :: outlinesOf place label members

end

/-- What stands at the value itself. -/
def Outline.place : Outline α ν → α
  | .leaf place | .array place _ | .record place _ => place

theorem Cell.place_outline (place : Span → TypeId → α) (label : NameId → ν) (cell : Cell) :
    (cell.outline place label).place = place cell.span cell.type := by
  cases cell <;> simp only [Cell.outline, Outline.place, Cell.span, Cell.type]

end

/-- The outline of the spans of a cell and of the names of its members. -/
def Schema.outline (s : Schema) (cell : Cell) : Outline Span (Option String) :=
  cell.outline (fun span _ => span) s.name?

variable {s t : Schema} {node m : Json.Node} {cell c d : Cell}

/-! ## Parts of cells and parts of values -/

theorem ScannedItems.exists_item {items : List Json.Node} {cells : List Cell}
    (h : ScannedItems s items cells) (hc : c ∈ cells) : ∃ item ∈ items, Scanned s item c :=
  exists_of_forall₂ h.forall₂ hc

theorem ScannedItems.exists_cell {items : List Json.Node} {cells : List Cell}
    (h : ScannedItems s items cells) (hm : m ∈ items) : ∃ c ∈ cells, Scanned s m c :=
  exists_of_forall₂ h.forall₂.flip hm

theorem ScannedMembers.exists_member {members : List (Json.Key × Json.Node)}
    {cells : List (NameId × Cell)} (h : ScannedMembers s members cells) {name : NameId}
    (hc : (name, c) ∈ cells) : ∃ key value, (key, value) ∈ members ∧ Scanned s value c := by
  obtain ⟨⟨key, value⟩, hvalue, hscanned, -⟩ := exists_of_forall₂ h.forall₂ hc
  exact ⟨key, value, hvalue, hscanned⟩

theorem ScannedMembers.exists_cell {members : List (Json.Key × Json.Node)}
    {cells : List (NameId × Cell)} (h : ScannedMembers s members cells) {key : Json.Key}
    (hm : (key, m) ∈ members) : ∃ name c, (name, c) ∈ cells ∧ Scanned s m c := by
  obtain ⟨⟨name, d⟩, hd, hscanned, -⟩ := exists_of_forall₂ h.forall₂.flip hm
  exact ⟨name, d, hd, hscanned⟩

/-- Only an array has an array as its image. -/
theorem Scanned.exists_items {span : Span} {type : TypeId} {cells : List Cell}
    (h : Scanned s node (.array span type cells)) :
    ∃ items, node = .array span items ∧ ScannedItems s items cells := by
  cases node with
  | array span' items =>
    obtain ⟨_, _, _, heq, hitems, -⟩ := h
    cases heq
    exact ⟨items, rfl, hitems⟩
  | object span' members =>
    obtain ⟨_, _, _, heq, -⟩ := h
    cases heq
  | _ => cases h

/-- Only an object has a record as its image. -/
theorem Scanned.exists_members {span : Span} {type : TypeId} {cells : List (NameId × Cell)}
    (h : Scanned s node (.record span type cells)) :
    ∃ members, node = .object span members ∧ ScannedMembers s members cells := by
  cases node with
  | array span' items =>
    obtain ⟨_, _, _, heq, -⟩ := h
    cases heq
  | object span' members =>
    obtain ⟨_, _, _, heq, hmembers, -⟩ := h
    cases heq
    exact ⟨members, rfl, hmembers⟩
  | _ => cases h

/-- A cell inside the image of a value is the image of a value inside it. -/
theorem Scanned.part (h : Scanned s node cell) (hc : c.Part cell) :
    ∃ m, m.Part node ∧ Scanned s m c := by
  induction hc generalizing node with
  | self => exact ⟨node, .self, h⟩
  | item hmem _ ih =>
    obtain ⟨items, rfl, hitems⟩ := h.exists_items
    obtain ⟨item, hitem, hscanned⟩ := hitems.exists_item hmem
    obtain ⟨m, hm, hmc⟩ := ih hscanned
    exact ⟨m, .item hitem hm, hmc⟩
  | member hmem _ ih =>
    obtain ⟨members, rfl, hmembers⟩ := h.exists_members
    obtain ⟨key, value, hvalue, hscanned⟩ := hmembers.exists_member hmem
    obtain ⟨m, hm, hmc⟩ := ih hscanned
    exact ⟨m, .member hvalue hm, hmc⟩

/-- A value inside another has its image inside the image of that. -/
theorem Scanned.exists_part (h : Scanned s node cell) (hm : m.Part node) :
    ∃ c, c.Part cell ∧ Scanned s m c := by
  induction hm generalizing cell with
  | self => exact ⟨cell, .self, h⟩
  | item hmem _ ih =>
    obtain ⟨type, cells, element, rfl, hitems, -⟩ := h
    obtain ⟨d, hd, hscanned⟩ := hitems.exists_cell hmem
    obtain ⟨c, hc, hmc⟩ := ih hscanned
    exact ⟨c, .item hd hc, hmc⟩
  | member hmem _ ih =>
    obtain ⟨type, cells, fields, rfl, hmembers, -⟩ := h
    obtain ⟨name, d, hd, hscanned⟩ := hmembers.exists_cell hmem
    obtain ⟨c, hc, hmc⟩ := ih hscanned
    exact ⟨c, .member hd hc, hmc⟩

/-! ## Outlines -/

section

variable {α : Type} {place place' : Span → TypeId → α}

theorem ScannedItems.outlines_eq {items : List Json.Node} {cells cells' : List Cell}
    (ih : ∀ item ∈ items, ∀ {c d : Cell}, Scanned s item c → Scanned t item d →
      c.outline place s.name? = d.outline place' t.name?)
    (h : ScannedItems s items cells) (h' : ScannedItems t items cells') :
    Cell.outlines place s.name? cells = Cell.outlines place' t.name? cells' := by
  induction items generalizing cells cells' with
  | nil =>
    simp only [ScannedItems] at h h'
    rw [h, h', Cell.outlines, Cell.outlines]
  | cons item items ih' =>
    obtain ⟨c, cs, rfl, hc, hcs⟩ := h
    obtain ⟨d, ds, rfl, hd, hds⟩ := h'
    rw [Cell.outlines, Cell.outlines, ih item List.mem_cons_self hc hd,
      ih' (fun i hi => ih i (List.mem_cons_of_mem _ hi)) hcs hds]

theorem ScannedMembers.outlinesOf_eq {members : List (Json.Key × Json.Node)}
    {cells cells' : List (NameId × Cell)}
    (ih : ∀ m ∈ members, ∀ {c d : Cell}, Scanned s m.2 c → Scanned t m.2 d →
      c.outline place s.name? = d.outline place' t.name?)
    (h : ScannedMembers s members cells) (h' : ScannedMembers t members cells') :
    Cell.outlinesOf place s.name? cells = Cell.outlinesOf place' t.name? cells' := by
  induction members generalizing cells cells' with
  | nil =>
    simp only [ScannedMembers] at h h'
    rw [h, h', Cell.outlinesOf, Cell.outlinesOf]
  | cons member members ih' =>
    obtain ⟨id, c, cs, name, rfl, hname, hid, hc, hcs⟩ := h
    obtain ⟨id', d, ds, name', rfl, hname', hid', hd, hds⟩ := h'
    have hlabel : s.name? id = t.name? id' := by
      rw [hid, hid', ← hname, ← hname']
    rw [Cell.outlinesOf, Cell.outlinesOf, hlabel, ih member List.mem_cons_self hc hd,
      ih' (fun i hi => ih i (List.mem_cons_of_mem _ hi)) hcs hds]

/-- Two images of one value have the same outline of whatever the images of every value agree in,
and of the names of members. -/
theorem Scanned.outline_eq_outline
    (hplace : ∀ {m : Json.Node} {c d : Cell}, Scanned s m c → Scanned t m d →
      place c.span c.type = place' d.span d.type)
    (h : Scanned s node c) (h' : Scanned t node d) :
    c.outline place s.name? = d.outline place' t.name? := by
  have hown := hplace h h'
  induction node generalizing c d with
  | array span items ih =>
    obtain ⟨_, cells, _, rfl, hitems, -⟩ := h
    obtain ⟨_, cells', _, rfl, hitems', -⟩ := h'
    have houtlines := hitems.outlines_eq (fun i hi _ _ hc hd => ih i hi hc hd (hplace hc hd))
      hitems'
    rw [Cell.outline, Cell.outline, houtlines]
    exact congrArg (Outline.array · _) hown
  | object span members ih =>
    obtain ⟨_, cells, _, rfl, hmembers, -⟩ := h
    obtain ⟨_, cells', _, rfl, hmembers', -⟩ := h'
    have houtlines := hmembers.outlinesOf_eq
      (fun m hm _ _ hc hd => ih m hm hc hd (hplace hc hd)) hmembers'
    rw [Cell.outline, Cell.outline, houtlines]
    exact congrArg (Outline.record · _) hown
  | _ =>
    simp only [Scanned] at h h'
    subst h h'
    exact congrArg Outline.leaf hown

end

/-- Images of one value have the same spans, the same shape and the same names of members. -/
theorem Scanned.outline_eq (h : Scanned s node c) (h' : Scanned t node d) :
    s.outline c = t.outline d :=
  h.outline_eq_outline (fun hc hd => hc.span_eq.trans hd.span_eq.symm) h'

end JsonLines
