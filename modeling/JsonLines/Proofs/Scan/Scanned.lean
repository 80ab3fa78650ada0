/-
JsonLines.Proofs.Scan.Scanned — what a scanned cell is, said without the scanner.

`Scanned s node cell` holds when the cell is the image of the node in the schema: it has the span of
the node and its parts in their order, the members under the numbers of their decoded names, and at
every level the type that the values demand — of an array the least upper bound of its items' types,
of an object the record of its members, all of them required. The relation speaks of the schema as
it is, not of how it came about, and stays true as the schema grows (`Scanned.of_extends`).

`scans_scanNode` ties it to the scanner: whatever a scan gives, the schema stays well formed and
keeps what it knew, and a cell that it gives is `Scanned`. Failed scans are included: what they
registered stays.
-/
import JsonLines.Scan.Scanner
import JsonLines.Proofs.Collecting
import JsonLines.Proofs.Json.Grammar
import JsonLines.Proofs.Schema.UnionTheorems
import Mathlib.Order.Bounds.Basic

namespace JsonLines

/-! ## Names -/

namespace Json

/-- The decoded name of a member, if it decodes. -/
def Key.name? (key : Key) : Option String :=
  match key.decode with
  | .error _ => none
  | .ok chars => some (String.ofList chars)

/-- Names decode one by one, in the order of the members. -/
theorem decodeNames_cons {key : Key} {node : Node} {members : List (Key × Node)}
    {names : List String} (h : decodeNames ((key, node) :: members) = .ok names) :
    ∃ name rest, key.name? = some name ∧ decodeNames members = .ok rest ∧ names = name :: rest := by
  rw [decodeNames] at h
  cases hkey : key.decode with
  | error e => simp [hkey] at h
  | ok chars =>
    cases hrest : decodeNames members with
    | error e => simp [hkey, hrest] at h
    | ok rest =>
      simp only [hkey, hrest, Except.ok.injEq] at h
      exact ⟨String.ofList chars, rest, by simp [Key.name?, hkey], rfl, h.symm⟩

end Json

/-! ## The image of a value -/

/-- The trees of the types of some cells. -/
def Schema.treesOf (s : Schema) (cells : List Cell) : Set (TypeTree NameId) :=
  {u | ∃ c ∈ cells, s.tree c.type = u}

/-- The record type of scanned members: all of them required. -/
def Cell.memberFields (members : List (NameId × Cell)) : List Field :=
  members.map fun (name, cell) => ⟨name, cell.type, false⟩

mutual

/-- The cell is the image of the value in the schema. -/
def Scanned (s : Schema) : Json.Node → Cell → Prop
  | .null span, cell => cell = .leaf span .null
  | .boolean span _, cell => cell = .leaf span .boolean
  | .number span numeral, cell =>
    cell = .leaf span (if numeral.isIntegral then .integer else .real)
  | .text span _, cell => cell = .leaf span .text
  | .array span items, cell => ∃ type cells element, cell = .array span type cells ∧
    ScannedItems s items cells ∧ s.get? type = some (.composite (.array element)) ∧
    IsLUB (s.treesOf cells) (s.tree element)
  | .object span members, cell => ∃ type cells fields, cell = .record span type cells ∧
    ScannedMembers s members cells ∧ (cells.map (·.1)).Nodup ∧
    s.get? type = some (.composite (.record fields)) ∧ (Cell.memberFields cells).Perm fields

/-- The cells are the images of the items, in their order. -/
def ScannedItems (s : Schema) : List Json.Node → List Cell → Prop
  | [], cells => cells = []
  | item :: items, cells => ∃ c cs, cells = c :: cs ∧ Scanned s item c ∧ ScannedItems s items cs

/-- The cells are the images of the members, in their order and under the numbers of their
names. -/
def ScannedMembers (s : Schema) : List (Json.Key × Json.Node) → List (NameId × Cell) → Prop
  | [], cells => cells = []
  | (key, node) :: members, cells => ∃ id c cs name, cells = (id, c) :: cs ∧
    key.name? = some name ∧ s.name? id = some name ∧ Scanned s node c ∧
    ScannedMembers s members cs

end

variable {s t : Schema} {node : Json.Node} {cell : Cell} {source : ByteSource} {scanner : Scanner}

theorem treesOf_of_extends (hs : s.WellFormed) (ht : t.WellFormed) (hst : s.Extends t)
    {cells : List Cell} (hk : ∀ c ∈ cells, s.Knows c.type) : t.treesOf cells = s.treesOf cells :=
  Set.ext fun _ => exists_congr fun c => and_congr_right fun hc => by
    rw [Schema.tree_of_extends hs ht hst (hk c hc)]

theorem Scanned.span_eq (h : Scanned s node cell) : cell.span = node.span := by
  cases node with
  | array span items =>
    obtain ⟨_, _, _, rfl, -⟩ := h
    rfl
  | object span members =>
    obtain ⟨_, _, _, rfl, -⟩ := h
    rfl
  | _ =>
    simp only [Scanned] at h
    rw [h]
    rfl

theorem Scanned.knows (h : Scanned s node cell) : s.Knows cell.type := by
  cases node with
  | array span items =>
    obtain ⟨_, _, _, rfl, -, hget, -⟩ := h
    exact Schema.knows_of_get? hget
  | object span members =>
    obtain ⟨_, _, _, rfl, -, -, hget, -⟩ := h
    exact Schema.knows_of_get? hget
  | number span numeral =>
    simp only [Scanned] at h
    subst h
    cases hi : numeral.isIntegral
    · simpa [Cell.type, hi] using Schema.knows_of_get? Schema.get?_real
    · simpa [Cell.type, hi] using Schema.knows_of_get? Schema.get?_integer
  | null span => exact h ▸ Schema.knows_null
  | boolean span value => exact h ▸ Schema.knows_of_get? Schema.get?_boolean
  | text span raw => exact h ▸ Schema.knows_of_get? Schema.get?_text

/-- Items are related to their images one by one. -/
theorem ScannedItems.forall₂ {items : List Json.Node} {cells : List Cell}
    (h : ScannedItems s items cells) : List.Forall₂ (Scanned s) items cells := by
  induction items generalizing cells with
  | nil =>
    simp only [ScannedItems] at h
    rw [h]
    exact .nil
  | cons item items ih =>
    obtain ⟨c, cs, rfl, hc, hcs⟩ := h
    exact .cons hc (ih hcs)

/-- So are members, by their names and their values. -/
theorem ScannedMembers.forall₂ {members : List (Json.Key × Json.Node)}
    {cells : List (NameId × Cell)} (h : ScannedMembers s members cells) :
    List.Forall₂ (fun member entry => Scanned s member.2 entry.2 ∧ ∃ name,
      member.1.name? = some name ∧ s.name? entry.1 = some name) members cells := by
  induction members generalizing cells with
  | nil =>
    simp only [ScannedMembers] at h
    rw [h]
    exact .nil
  | cons member members ih =>
    obtain ⟨id, c, cs, text, rfl, htext, hid, hc, hcs⟩ := h
    exact .cons ⟨hc, text, htext, hid⟩ (ih hcs)

theorem ScannedItems.knows {items : List Json.Node} {cells : List Cell}
    (h : ScannedItems s items cells) : ∀ c ∈ cells, s.Knows c.type := by
  intro c hc
  obtain ⟨item, -, hscanned⟩ := exists_of_forall₂ h.forall₂ hc
  exact hscanned.knows

theorem ScannedMembers.knows {members : List (Json.Key × Json.Node)}
    {cells : List (NameId × Cell)} (h : ScannedMembers s members cells) :
    ∀ c ∈ cells, s.Knows c.2.type := by
  intro c hc
  obtain ⟨member, -, hscanned, -⟩ := exists_of_forall₂ h.forall₂ hc
  exact hscanned.knows

theorem ScannedItems.of_extends_of {items : List Json.Node} {cells : List Cell}
    (ih : ∀ item ∈ items, ∀ {cell : Cell}, Scanned s item cell → Scanned t item cell)
    (h : ScannedItems s items cells) : ScannedItems t items cells := by
  induction items generalizing cells with
  | nil => exact h
  | cons item items ih' =>
    obtain ⟨c, cs, rfl, hc, hcs⟩ := h
    exact ⟨c, cs, rfl, ih item List.mem_cons_self hc,
      ih' (fun i hi => ih i (List.mem_cons_of_mem _ hi)) hcs⟩

theorem ScannedMembers.of_extends_of {members : List (Json.Key × Json.Node)}
    {cells : List (NameId × Cell)} (hst : s.Extends t)
    (ih : ∀ m ∈ members, ∀ {cell : Cell}, Scanned s m.2 cell → Scanned t m.2 cell)
    (h : ScannedMembers s members cells) : ScannedMembers t members cells := by
  induction members generalizing cells with
  | nil => exact h
  | cons m members ih' =>
    obtain ⟨id, c, cs, name, rfl, hname, hid, hc, hcs⟩ := h
    exact ⟨id, c, cs, name, rfl, hname, hst.names _ _ hid, ih m List.mem_cons_self hc,
      ih' (fun i hi => ih i (List.mem_cons_of_mem _ hi)) hcs⟩

/-- What is scanned stays scanned as the schema grows. -/
theorem Scanned.of_extends (hs : s.WellFormed) (ht : t.WellFormed) (hst : s.Extends t)
    (h : Scanned s node cell) : Scanned t node cell := by
  induction node generalizing cell with
  | array span items ih =>
    obtain ⟨type, cells, element, rfl, hitems, hget, hlub⟩ := h
    have helement : s.Knows element := hs.knows_element hget
    refine ⟨type, cells, element, rfl, hitems.of_extends_of ih, hst.types _ _ hget, ?_⟩
    rw [Schema.tree_of_extends hs ht hst helement, treesOf_of_extends hs ht hst hitems.knows]
    exact hlub
  | object span members ih =>
    obtain ⟨type, cells, fields, rfl, hmembers, hnd, hget, hperm⟩ := h
    exact ⟨type, cells, fields, rfl, hmembers.of_extends_of hst ih, hnd, hst.types _ _ hget, hperm⟩
  | _ => exact h

theorem ScannedItems.of_extends {items : List Json.Node} {cells : List Cell} (hs : s.WellFormed)
    (ht : t.WellFormed) (hst : s.Extends t) (h : ScannedItems s items cells) :
    ScannedItems t items cells :=
  h.of_extends_of fun _ _ _ hc => hc.of_extends hs ht hst

theorem ScannedMembers.of_extends {members : List (Json.Key × Json.Node)}
    {cells : List (NameId × Cell)} (hs : s.WellFormed) (ht : t.WellFormed) (hst : s.Extends t)
    (h : ScannedMembers s members cells) : ScannedMembers t members cells :=
  h.of_extends_of hst fun _ _ _ hc => hc.of_extends hs ht hst

/-! ## What a scan gives -/

/-- What a scan does to a schema, successful or not, and what it gives if it is. -/
structure Scans (s : Schema) (node : Json.Node) (r : Except ScanError Cell × Schema) : Prop where
  wellFormed : r.2.WellFormed
  extended : s.Extends r.2
  scanned : ∀ cell, r.1 = .ok cell → Scanned r.2 node cell

/-- What scanning items does, and the union that it gives of `element` and their types. -/
structure ScansItems (s : Schema) (element : TypeId) (items : List Json.Node)
    (r : Except ScanError (List Cell × TypeId) × Schema) : Prop where
  wellFormed : r.2.WellFormed
  extended : s.Extends r.2
  scanned : ∀ cells type, r.1 = .ok (cells, type) → ScannedItems r.2 items cells
  knows : ∀ cells type, r.1 = .ok (cells, type) → r.2.Knows type
  le_iff : ∀ cells type, r.1 = .ok (cells, type) → ∀ u,
    r.2.tree type ≤ u ↔ s.tree element ≤ u ∧ ∀ c ∈ cells, r.2.tree c.type ≤ u

/-- What scanning members does; `seen` are the names that came before. -/
structure ScansMembers (s : Schema) (seen : List NameId)
    (members : List (Json.Key × Json.Node))
    (r : Except ScanError (List (NameId × Cell)) × Schema) : Prop where
  wellFormed : r.2.WellFormed
  extended : s.Extends r.2
  scanned : ∀ cells, r.1 = .ok cells → ScannedMembers r.2 members cells
  nodup : ∀ cells, r.1 = .ok cells → (cells.map (·.1)).Nodup
  unseen : ∀ cells, r.1 = .ok cells → ∀ c ∈ cells, c.1 ∉ seen

/-- A scan that fails gives nothing but a schema. -/
theorem scans_error {e : ScanError} (ht : t.WellFormed) (hst : s.Extends t) :
    Scans s node (.error e, t) := ⟨ht, hst, by rintro _ ⟨⟩⟩

theorem scansItems_error {items : List Json.Node} {element : TypeId} {e : ScanError}
    (ht : t.WellFormed) (hst : s.Extends t) : ScansItems s element items (.error e, t) := by
  refine ⟨ht, hst, ?_, ?_, ?_⟩ <;> rintro _ _ ⟨⟩

theorem scansMembers_error {members : List (Json.Key × Json.Node)} {seen : List NameId}
    {e : ScanError} (ht : t.WellFormed) (hst : s.Extends t) :
    ScansMembers s seen members (.error e, t) := by
  refine ⟨ht, hst, ?_, ?_, ?_⟩ <;> rintro _ ⟨⟩

theorem scansItems_scanItems {items : List Json.Node} {depth : Nat} {element : TypeId}
    (ih : ∀ item ∈ items, ∀ {s : Schema}, s.WellFormed →
      Scans s item (scanner.scanNode source depth s item))
    (hs : s.WellFormed) (he : s.Knows element) :
    ScansItems s element items (scanner.scanItems source depth s element items) := by
  induction items generalizing s element with
  | nil =>
    rw [Scanner.scanItems]
    refine ⟨hs, .refl s, ?_, ?_, ?_⟩ <;> rintro cells type ⟨⟩
    · rfl
    · exact he
    · simp
  | cons item items ih' =>
    have hhead := ih item List.mem_cons_self hs
    rw [Scanner.scanItems]
    generalize scanner.scanNode source depth s item = r at hhead
    obtain ⟨outcome, s₁⟩ := r
    cases outcome with
    | error e => exact scansItems_error hhead.wellFormed hhead.extended
    | ok cell =>
      have hcell := hhead.scanned cell rfl
      have hjoin := Schema.joins_union hhead.wellFormed (hhead.extended.knows he) hcell.knows
      dsimp only
      generalize s₁.union element cell.type = r at hjoin
      obtain ⟨joined, s₂⟩ := r
      have htail := ih' (fun i hi => ih i (List.mem_cons_of_mem _ hi)) hjoin.wellFormed hjoin.knows
      dsimp only
      generalize scanner.scanItems source depth s₂ joined items = r at htail
      obtain ⟨outcome, s₃⟩ := r
      have hext := hhead.extended.trans (hjoin.extended.trans htail.extended)
      cases outcome with
      | error e => exact scansItems_error htail.wellFormed hext
      | ok result =>
        obtain ⟨cells, type⟩ := result
        refine ⟨htail.wellFormed, hext, ?_, ?_, ?_⟩ <;> rintro _ _ ⟨⟩
        · exact ⟨cell, cells, rfl, hcell.of_extends hhead.wellFormed htail.wellFormed
            (hjoin.extended.trans htail.extended), htail.scanned cells type rfl⟩
        · exact htail.knows cells type rfl
        · intro u
          have hkeep := Schema.tree_of_extends hhead.wellFormed htail.wellFormed
            (hjoin.extended.trans htail.extended) hcell.knows
          have helement := Schema.tree_of_extends hs hhead.wellFormed hhead.extended he
          rw [htail.le_iff cells type rfl, hjoin.tree_eq, sup_le_iff, helement,
            List.forall_mem_cons, hkeep, and_assoc]

theorem scansMembers_scanMembers {members : List (Json.Key × Json.Node)} {depth : Nat}
    {seen : List NameId} {names : List String}
    (ih : ∀ m ∈ members, ∀ {s : Schema}, s.WellFormed →
      Scans s m.2 (scanner.scanNode source depth s m.2))
    (hnames : Json.decodeNames members = .ok names) (hs : s.WellFormed) :
    ScansMembers s seen members (scanner.scanMembers source depth s seen names members) := by
  induction members generalizing s seen names with
  | nil =>
    rw [Scanner.scanMembers]
    refine ⟨hs, .refl s, ?_, ?_, ?_⟩ <;> rintro cells ⟨⟩
    · rfl
    · exact .nil
    · simp
  | cons m members ih' =>
    obtain ⟨key, node⟩ := m
    obtain ⟨name, rest, hname, hrest, rfl⟩ := Json.decodeNames_cons hnames
    have hintern := Schema.interns_intern hs name
    rw [Scanner.scanMembers]
    generalize s.intern name = r at hintern
    obtain ⟨id, s₁⟩ := r
    dsimp only
    split
    · exact scansMembers_error hintern.wellFormed hintern.extended
    rename_i hseen
    have hhead := ih _ List.mem_cons_self hintern.wellFormed
    dsimp only at hhead
    generalize scanner.scanNode source depth s₁ node = r at hhead
    obtain ⟨outcome, s₂⟩ := r
    cases outcome with
    | error e =>
      exact scansMembers_error hhead.wellFormed (hintern.extended.trans hhead.extended)
    | ok cell =>
      have htail : ScansMembers s₂ (id :: seen) members
          (scanner.scanMembers source depth s₂ (id :: seen) rest members) :=
        ih' (fun i hi => ih i (List.mem_cons_of_mem _ hi)) hrest hhead.wellFormed
      dsimp only
      generalize scanner.scanMembers source depth s₂ (id :: seen) rest members = r at htail
      obtain ⟨outcome, s₃⟩ := r
      have hext := hintern.extended.trans (hhead.extended.trans htail.extended)
      cases outcome with
      | error e => exact scansMembers_error htail.wellFormed hext
      | ok cells =>
        refine ⟨htail.wellFormed, hext, ?_, ?_, ?_⟩ <;> rintro _ ⟨⟩
        · exact ⟨id, cell, cells, name, rfl, hname,
            (hhead.extended.trans htail.extended).names _ _ hintern.found,
            (hhead.scanned cell rfl).of_extends hhead.wellFormed htail.wellFormed htail.extended,
            htail.scanned cells rfl⟩
        · refine List.nodup_cons.mpr ⟨?_, htail.nodup cells rfl⟩
          intro hmem
          obtain ⟨c, hc, hid⟩ := List.mem_map.mp hmem
          exact htail.unseen cells rfl c hc (hid ▸ List.mem_cons_self)
        · rintro c (_ | ⟨_, hc⟩)
          · exact hseen
          · intro hmem
            exact htail.unseen cells rfl c hc (List.mem_cons_of_mem _ hmem)

theorem admits_memberFields {cells : List (NameId × Cell)} (hnd : (cells.map (·.1)).Nodup)
    (hk : ∀ c ∈ cells, s.Knows c.2.type) : s.Admits (.record (Cell.memberFields cells)) where
  parts part hpart := by
    simp only [Composite.parts, Cell.memberFields, List.map_map, List.mem_map] at hpart
    obtain ⟨c, hc, rfl⟩ := hpart
    exact hk c hc
  names := by
    simpa [Composite.names, Cell.memberFields, Function.comp_def] using hnd

/-- The array type over the union of the items' types is registered. -/
theorem ScansItems.registers {items : List Json.Node} {cells : List Cell} {first element : TypeId}
    (h : ScansItems s first items (.ok (cells, element), t)) :
    t.Registers (.array element) (t.array element) :=
  Schema.registers_register h.wellFormed (Schema.admits_array (h.knows cells element rfl))

/-- The record type of the members is registered. -/
theorem ScansMembers.registers {members : List (Json.Key × Json.Node)} {seen : List NameId}
    {cells : List (NameId × Cell)} (h : ScansMembers s seen members (.ok cells, t)) :
    t.Registers (.record (Cell.memberFields cells)) (t.record (Cell.memberFields cells)) :=
  Schema.registers_register h.wellFormed
    (admits_memberFields (h.nodup cells rfl) (h.scanned cells rfl).knows)

/-- The array type over the union of the items' types. -/
theorem ScansItems.array {span : Span} {items : List Json.Node} {cells : List Cell}
    {element : TypeId} (h : ScansItems s .null items (.ok (cells, element), t)) :
    Scans s (.array span items)
      (.ok (.array span (t.array element).1 cells), (t.array element).2) := by
  have hk := h.knows cells element rfl
  have hitems := h.scanned cells element rfl
  have hr := h.registers
  refine ⟨hr.wellFormed, h.extended.trans hr.extended, ?_⟩
  rintro _ ⟨⟩
  obtain ⟨c, hget, hsame⟩ := hr.found
  rw [Composite.same_array_iff.mp hsame] at hget
  refine ⟨_, cells, element, rfl, hitems.of_extends h.wellFormed hr.wellFormed hr.extended,
    hget, ?_⟩
  rw [Schema.tree_of_extends h.wellFormed hr.wellFormed hr.extended hk,
    treesOf_of_extends h.wellFormed hr.wellFormed hr.extended hitems.knows, isLUB_iff_le_iff]
  intro u
  rw [h.le_iff cells element rfl u, Schema.tree_null]
  constructor
  · rintro ⟨-, hle⟩ _ ⟨c, hc, rfl⟩
    exact hle c hc
  · intro hu
    exact ⟨TypeTree.null_le u, fun c hc => hu ⟨c, hc, rfl⟩⟩

/-- The record type of the members. -/
theorem ScansMembers.record {span : Span} {members : List (Json.Key × Json.Node)}
    {cells : List (NameId × Cell)} (h : ScansMembers s [] members (.ok cells, t)) :
    Scans s (.object span members)
      (.ok (.record span (t.record (Cell.memberFields cells)).1 cells),
        (t.record (Cell.memberFields cells)).2) := by
  have hmembers := h.scanned cells rfl
  have hnd := h.nodup cells rfl
  have hr := h.registers
  refine ⟨hr.wellFormed, h.extended.trans hr.extended, ?_⟩
  rintro _ ⟨⟩
  obtain ⟨c, hget, hsame⟩ := hr.found
  obtain ⟨fields, rfl, hperm⟩ := Composite.same_record_iff.mp hsame
  exact ⟨_, cells, fields, rfl, hmembers.of_extends h.wellFormed hr.wellFormed hr.extended, hnd,
    hget, hperm⟩

/-- **What a scan gives is the image of the value**, and the schema only grows. -/
theorem scans_scanNode {depth : Nat} (hs : s.WellFormed) :
    Scans s node (scanner.scanNode source depth s node) := by
  induction node generalizing s depth with
  | array span items ih =>
    rw [Scanner.scanNode]
    split
    · exact scans_error hs (.refl s)
    have hitems : ScansItems s .null items
        (scanner.scanItems source (depth + 1) s .null items) :=
      scansItems_scanItems (fun i hi _ hs => ih i hi hs) hs
        Schema.knows_null
    generalize scanner.scanItems source (depth + 1) s .null items = r at hitems
    obtain ⟨outcome, t⟩ := r
    cases outcome with
    | error e => exact scans_error hitems.wellFormed hitems.extended
    | ok result => exact hitems.array
  | object span members ih =>
    rw [Scanner.scanNode]
    split
    · exact scans_error hs (.refl s)
    cases hnames : Json.decodeNames members with
    | error fault => exact scans_error hs (.refl s)
    | ok names =>
      have hmembers : ScansMembers s [] members
          (scanner.scanMembers source (depth + 1) s [] names members) :=
        scansMembers_scanMembers (fun m hm _ hs => ih m hm hs) hnames hs
      dsimp only
      generalize scanner.scanMembers source (depth + 1) s [] names members = r at hmembers
      obtain ⟨outcome, t⟩ := r
      cases outcome with
      | error e => exact scans_error hmembers.wellFormed hmembers.extended
      | ok cells => exact hmembers.record
  | _ => rw [Scanner.scanNode]; exact ⟨hs, .refl s, by rintro _ ⟨⟩; rfl⟩

/-- A scan of a span, successful or not, leaves a well-formed extension. -/
theorem wellFormed_scan {span : Span} (hs : s.WellFormed) :
    (scanner.scan source s span).2.WellFormed ∧ s.Extends (scanner.scan source s span).2 := by
  unfold Scanner.scan
  cases Scanner.readTree source span with
  | error e => exact ⟨hs, .refl s⟩
  | ok node =>
    have h : Scans s node (scanner.scanNode source 0 s node) := scans_scanNode hs
    exact ⟨h.wellFormed, h.extended⟩

end JsonLines
