/-
JsonLines.Proofs.Scan.Counterparts — images of one value in two schemas.

A value that is scanned again is scanned into another schema, where names and types have other
numbers. The two images are counterparts: they have the same span, and their items and the members
of one name are counterparts again. A member is looked for by the number of its name, so the names
matter: a schema that a value was scanned into knows the names that occur in it, at any depth
(`Scanned.mem_names`), and no names but those of the values (`Schema.Grows.namesWithin`).
-/
import JsonLines.Proofs.Scan.Growth
import JsonLines.Proofs.Scan.ValueType

namespace JsonLines

open Json

variable {s t : Schema} {node m : Node} {c d : Cell} {items : List Node}
  {members : List (Key × Node)} {name : String} {n n' : NameId}

/-! ## The names of an image -/

theorem Schema.mem_names_iff : name ∈ s.names ↔ ∃ n, s.name? n = some name := by
  rw [Array.mem_iff_getElem?]
  constructor
  · rintro ⟨i, h⟩
    exact ⟨⟨i⟩, h⟩
  · rintro ⟨n, h⟩
    exact ⟨n.index, h⟩

theorem ScannedMembers.exists_id {fields : List (NameId × Cell)}
    (h : ScannedMembers s members fields) {member : Key × Node} (hmember : member ∈ members)
    (hname : member.1.name? = some name) : ∃ n, s.name? n = some name := by
  obtain ⟨entry, -, -, text, htext, hid⟩ := exists_of_forall₂ h.forall₂.flip hmember
  exact ⟨entry.1, by rw [hid, ← htext, hname]⟩

/-- **The names in a value are known** where it was scanned. -/
theorem Scanned.mem_names (h : Scanned s node c) (hname : node.HasName name) : name ∈ s.names := by
  obtain ⟨span, members, hpart, member, hmember, hkey⟩ := hname
  obtain ⟨c', -, hscanned⟩ := h.exists_part hpart
  obtain ⟨type, cells, fields, rfl, hmembers, -⟩ := hscanned
  exact Schema.mem_names_iff.mpr (hmembers.exists_id hmember hkey)

/-- The name of a member occurs in the value. -/
theorem ScannedMembers.exists_key {fields : List (NameId × Cell)}
    (h : ScannedMembers s members fields) {entry : NameId × Cell} (hentry : entry ∈ fields)
    (hn : s.name? entry.1 = some name) : ∃ member ∈ members, member.1.name? = some name := by
  obtain ⟨member, hmember, -, text, htext, hid⟩ := exists_of_forall₂ h.forall₂ hentry
  exact ⟨member, hmember, by rw [htext, ← hid, hn]⟩

theorem Scanned.hasName_of_member? (h : Scanned s node c) (hn : s.name? n = some name)
    (hmember : (c.member? n).isSome) : node.HasName name := by
  rw [Cell.member?, Option.isSome_map] at hmember
  obtain ⟨entry, hfind⟩ := Option.isSome_iff_exists.mp hmember
  have hmem := List.mem_of_find?_eq_some hfind
  have hentry : entry.1 = n := by simpa using List.find?_some hfind
  cases node with
  | object span members =>
    obtain ⟨type, cells, fields, rfl, hmembers, -⟩ := h
    obtain ⟨member, hmember, hkey⟩ := hmembers.exists_key hmem (hentry ▸ hn)
    exact hasName_of_member hmember (.inl hkey)
  | array span items =>
    obtain ⟨type, cells, element, rfl, -⟩ := h
    cases hmem
  | _ =>
    simp only [Scanned] at h
    subst h
    cases hmem

/-! ## Counterparts -/

/-- The cells are images of one value, the first in one schema and the second in another. -/
def Counterparts (s t : Schema) (c d : Cell) : Prop := ∃ m, Scanned s m c ∧ Scanned t m d

/-- What is not there is the image of a null, wherever it is not. -/
theorem Counterparts.absent (s t : Schema) : Counterparts s t .absent .absent :=
  ⟨.null .empty, rfl, rfl⟩

/-- The absent value has no counterpart but itself. -/
theorem Counterparts.eq_absent (h : Counterparts s t .absent d) : d = .absent := by
  obtain ⟨m, hc, hd⟩ := h
  cases m with
  | null span =>
    simp only [Scanned] at hc hd
    rw [hd, ← hc]
  | array span items =>
    obtain ⟨type, cells, element, heq, -⟩ := hc
    cases heq
  | object span members =>
    obtain ⟨type, cells, fields, heq, -⟩ := hc
    cases heq
  | number span numeral =>
    simp only [Scanned] at hc
    cases hi : numeral.isIntegral <;>
      simp [hi, Cell.absent, TypeId.null, TypeId.integer, TypeId.real] at hc
  | _ =>
    simp only [Scanned] at hc
    cases hc

theorem Counterparts.span_eq (h : Counterparts s t c d) : d.span = c.span := by
  obtain ⟨m, hc, hd⟩ := h
  rw [hc.span_eq, hd.span_eq]

theorem Counterparts.namedTree_eq (hs : s.WellFormed) (ht : t.WellFormed)
    (h : Counterparts s t c d) : t.namedTree d.type = s.namedTree c.type := by
  obtain ⟨m, hc, hd⟩ := h
  exact hc.namedTree_eq_namedTree hs ht hd

theorem ScannedItems.counterparts {cells cells' : List Cell} (h : ScannedItems s items cells)
    (h' : ScannedItems t items cells') : List.Forall₂ (Counterparts s t) cells cells' :=
  forall₂_of_shared h.forall₂ h'.forall₂ fun item _ _ hc hd => ⟨item, hc, hd⟩

/-- **The items of counterparts are counterparts.** -/
theorem Counterparts.elements (h : Counterparts s t c d) :
    List.Forall₂ (Counterparts s t) c.elements d.elements := by
  obtain ⟨m, hc, hd⟩ := h
  cases m with
  | array span items =>
    obtain ⟨type, cells, element, rfl, hitems, -⟩ := hc
    obtain ⟨type', cells', element', rfl, hitems', -⟩ := hd
    exact hitems.counterparts hitems'
  | object span members =>
    obtain ⟨type, cells, fields, rfl, -⟩ := hc
    obtain ⟨type', cells', fields', rfl, -⟩ := hd
    exact .nil
  | _ =>
    simp only [Scanned] at hc hd
    rw [hc, hd]
    exact .nil

/-- A name that stands for the same text is found at the same member. -/
theorem ScannedMembers.counterparts {fields fields' : List (NameId × Cell)}
    (hn : s.name? n = some name) (hn' : t.name? n' = some name)
    (h : ScannedMembers s members fields) (h' : ScannedMembers t members fields') :
    Option.Rel (Counterparts s t) ((fields.find? (·.1 = n)).map (·.2))
      ((fields'.find? (·.1 = n')).map (·.2)) := by
  induction members generalizing fields fields' with
  | nil =>
    simp only [ScannedMembers] at h h'
    rw [h, h']
    exact .none
  | cons member members ih =>
    obtain ⟨id, c, cs, text, rfl, htext, hid, hc, hcs⟩ := h
    obtain ⟨id', d, ds, text', rfl, htext', hid', hd, hds⟩ := h'
    cases htext.symm.trans htext'
    by_cases heq : text = name
    · subst heq
      cases Schema.name_inj hid hn
      cases Schema.name_inj hid' hn'
      simp only [List.find?_cons, decide_true, Option.map_some]
      exact .some ⟨member.2, hc, hd⟩
    · have hne : id ≠ n := by
        rintro rfl
        exact heq (Option.some.inj (hid.symm.trans hn))
      have hne' : id' ≠ n' := by
        rintro rfl
        exact heq (Option.some.inj (hid'.symm.trans hn'))
      simp only [List.find?_cons, hne, hne', decide_false]
      exact ih hcs hds

/-- **The members of counterparts are counterparts**, by the text of their name. -/
theorem Counterparts.member? (hn : s.name? n = some name) (hn' : t.name? n' = some name)
    (h : Counterparts s t c d) :
    Option.Rel (Counterparts s t) (c.member? n) (d.member? n') := by
  obtain ⟨m, hc, hd⟩ := h
  cases m with
  | object span members =>
    obtain ⟨type, cells, fields, rfl, hmembers, -⟩ := hc
    obtain ⟨type', cells', fields', rfl, hmembers', -⟩ := hd
    exact hmembers.counterparts hn hn' hmembers'
  | array span items =>
    obtain ⟨type, cells, element, rfl, -⟩ := hc
    obtain ⟨type', cells', element', rfl, -⟩ := hd
    exact .none
  | _ =>
    simp only [Scanned] at hc hd
    rw [hc, hd]
    exact .none

/-- A member that the counterpart's schema has no name for is not there. -/
theorem Counterparts.member?_eq_none (hn : s.name? n = some name) (hname : name ∉ t.names)
    (h : Counterparts s t c d) : c.member? n = none := by
  obtain ⟨m, hc, hd⟩ := h
  by_contra hmember
  exact hname (hd.mem_names (hc.hasName_of_member? hn (Option.isSome_iff_ne_none.mpr hmember)))

end JsonLines
