/-
JsonLines.Proofs.Scan.ParseTree — a scanned cell is the parse tree of its text.

`Node.outline` is the parse tree of a value with the span and the kind of every part and the decoded
names; the cell that a scan gives has the same outline. Part by part (`ScannedPart`): the span
covers the text of the value and nothing around it, the spans of its items or members follow one
another strictly inside it, and its type is told from theirs — of an array the union of the items'
types, of an object the record of its members, all required. The spans are read off the grammar
(`Writes.spans_apart`), the types off the relation that every scan establishes (`Scanned`).
-/
import JsonLines.Proofs.Scan.Acceptance
import JsonLines.Proofs.Scan.Parts
import JsonLines.Proofs.Scan.Rereading
import JsonLines.Proofs.Schema.Reachable

namespace JsonLines

open Json Utf8

/-! ## Values and cells side by side -/

/-- The kind of a value, as its literal demands. -/
def Json.Node.kind : Node → Kind
  | .null _ => .null
  | .boolean _ _ => .boolean
  | .number _ numeral => if numeral.isIntegral then .integer else .real
  | .text _ _ => .text
  | .array _ _ => .array
  | .object _ _ => .record

mutual

/-- The outline of a value: spans, kinds and decoded names. -/
def Json.Node.outline : Node → Outline (Span × Kind) (Option String)
  | .null span => .leaf (span, .null)
  | .boolean span _ => .leaf (span, .boolean)
  | .number span numeral => .leaf (span, if numeral.isIntegral then .integer else .real)
  | .text span _ => .leaf (span, .text)
  | .array span items => .array (span, .array) (outlinesOfItems items)
  | .object span members => .record (span, .record) (outlinesOfMembers members)

/-- The outlines of items. -/
def Json.outlinesOfItems : List Node → List (Outline (Span × Kind) (Option String))
  | [] => []
  | item :: items => item.outline :: outlinesOfItems items

/-- The outlines of members, with their names. -/
def Json.outlinesOfMembers :
    List (Key × Node) → List (Option String × Outline (Span × Kind) (Option String))
  | [] => []
  | (key, node) :: members => (key.name?, node.outline) :: outlinesOfMembers members

end

/-- The outline of a cell: spans, kinds and the names that the schema has for its members. -/
def Schema.parseOutline (s : Schema) (cell : Cell) : Outline (Span × Kind) (Option String) :=
  cell.outline (fun span type => (span, s.kind type)) s.name?

/-- The items of an array and the values of an object. -/
def Json.Node.children : Node → List Node
  | .array _ items => items
  | .object _ members => members.map (·.2)
  | _ => []

/-- The cells right inside a cell. -/
def Cell.children : Cell → List Cell
  | .array _ _ cells => cells
  | .record _ _ members => members.map (·.2)
  | .leaf _ _ => []

variable {source : ByteSource} {scanner : Scanner} {s t : Schema} {span : Span} {p q r : Nat}
  {cs own : List Char} {node m : Node} {items : List Node} {members : List (Key × Node)}
  {cell c : Cell} {cells : List Cell} {fields : List (NameId × Cell)} {spans : List Span}

/-! ## The outline of an image -/

theorem kind_eq_of_get? {id : TypeId} {type : DataType} (h : s.get? id = some type) :
    s.kind id = type.kind := by
  rw [Schema.kind, h]
  rfl

theorem ScannedItems.outlines_eq_outlinesOfItems
    (ih : ∀ item ∈ items, ∀ {c : Cell}, Scanned s item c → s.parseOutline c = item.outline)
    (h : ScannedItems s items cells) :
    Cell.outlines (fun span type => (span, s.kind type)) s.name? cells = outlinesOfItems items := by
  induction items generalizing cells with
  | nil =>
    simp only [ScannedItems] at h
    rw [h, Cell.outlines, outlinesOfItems]
  | cons item items ih' =>
    obtain ⟨c, cs, rfl, hc, hcs⟩ := h
    have hhead := ih item List.mem_cons_self hc
    rw [Cell.outlines, outlinesOfItems, ih' (fun i hi => ih i (List.mem_cons_of_mem _ hi)) hcs,
      ← hhead, Schema.parseOutline]

theorem ScannedMembers.outlinesOf_eq_outlinesOfMembers
    (ih : ∀ m ∈ members, ∀ {c : Cell}, Scanned s m.2 c → s.parseOutline c = m.2.outline)
    (h : ScannedMembers s members fields) :
    Cell.outlinesOf (fun span type => (span, s.kind type)) s.name? fields =
      outlinesOfMembers members := by
  induction members generalizing fields with
  | nil =>
    simp only [ScannedMembers] at h
    rw [h, Cell.outlinesOf, outlinesOfMembers]
  | cons member members ih' =>
    obtain ⟨id, c, cs, name, rfl, hname, hid, hc, hcs⟩ := h
    have hhead := ih member List.mem_cons_self hc
    rw [Cell.outlinesOf, outlinesOfMembers, ih' (fun i hi => ih i (List.mem_cons_of_mem _ hi)) hcs,
      hname, hid, ← hhead, Schema.parseOutline]

/-- **The image of a value has its outline.** -/
theorem Scanned.parseOutline_eq (h : Scanned s node cell) : s.parseOutline cell = node.outline := by
  induction node generalizing cell with
  | array span items ih =>
    obtain ⟨type, cells, element, rfl, hitems, hget, -⟩ := h
    rw [Schema.parseOutline, Cell.outline, Node.outline, kind_eq_of_get? hget,
      hitems.outlines_eq_outlinesOfItems fun i hi _ => ih i hi]
    rfl
  | object span members ih =>
    obtain ⟨type, cells, fields, rfl, hmembers, -, hget, -⟩ := h
    rw [Schema.parseOutline, Cell.outline, Node.outline, kind_eq_of_get? hget,
      hmembers.outlinesOf_eq_outlinesOfMembers fun m hm _ => ih m hm]
    rfl
  | number span numeral =>
    simp only [Scanned] at h
    subst h
    rw [Schema.parseOutline, Cell.outline, Node.outline]
    cases numeral.isIntegral <;> rfl
  | _ =>
    simp only [Scanned] at h
    subst h
    rfl

theorem ScannedItems.map_span (h : ScannedItems s items cells) :
    cells.map Cell.span = items.map Node.span :=
  (map_eq_map_of_forall₂ h.forall₂ fun _ _ hc => hc.span_eq.symm).symm

theorem ScannedMembers.map_span (h : ScannedMembers s members fields) :
    fields.map (·.2.span) = members.map (·.2.span) :=
  (map_eq_map_of_forall₂ h.forall₂ fun _ _ hc => hc.1.span_eq.symm).symm

theorem Scanned.children_span (h : Scanned s node cell) :
    cell.children.map Cell.span = node.children.map Node.span := by
  cases node with
  | array span items =>
    obtain ⟨type, cells, element, rfl, hitems, -⟩ := h
    exact hitems.map_span
  | object span members =>
    obtain ⟨type, cells, fields, rfl, hmembers, -⟩ := h
    rw [Cell.children, Node.children, List.map_map, List.map_map]
    exact hmembers.map_span
  | _ =>
    simp only [Scanned] at h
    subst h
    rfl

/-! ## Spans that follow one another -/

/-- Spans that are not empty follow one another between two positions, with something in between. -/
structure Spaced (p q : Nat) (spans : List Span) : Prop where
  increasing : spans.Pairwise fun a b => a.offset + a.len < b.offset
  between : ∀ a ∈ spans, p ≤ a.offset ∧ 0 < a.len ∧ a.offset + a.len ≤ q

theorem spaced_nil : Spaced p q [] := ⟨.nil, by simp⟩

/-- One more span in front of others. -/
theorem Spaced.cons {a : Span} (hp : p ≤ a.offset) (hlen : 0 < a.len) (hr : a.offset + a.len < r)
    (hq : a.offset + a.len ≤ q) (h : Spaced r q spans) : Spaced p q (a :: spans) where
  increasing := List.pairwise_cons.mpr
    ⟨fun b hb => Nat.lt_of_lt_of_le hr (h.between b hb).1, h.increasing⟩
  between := by
    rintro b (_ | ⟨_, hb⟩)
    · exact ⟨hp, hlen, hq⟩
    · have := h.between b hb
      exact ⟨by omega, this.2⟩

theorem Spaced.mono {p' q' : Nat} (h : Spaced p q spans) (hp : p' ≤ p) (hq : q ≤ q') :
    Spaced p' q' spans where
  increasing := h.increasing
  between a ha := by
    have := h.between a ha
    omega

/-- There are no more of them than bytes. -/
theorem Spaced.length_le (h : Spaced p q spans) : spans.length ≤ q - p := by
  induction spans generalizing p with
  | nil => exact Nat.zero_le _
  | cons a spans ih =>
    obtain ⟨hlater, hincreasing⟩ := List.pairwise_cons.mp h.increasing
    obtain ⟨hp, hlen, hq⟩ := h.between a List.mem_cons_self
    have hrest := ih (p := a.offset + a.len + 1) ⟨hincreasing, fun b hb =>
      ⟨hlater b hb, (h.between b (List.mem_cons_of_mem a hb)).2⟩⟩
    rw [List.length_cons]
    omega

theorem Json.Writes.width_pos (h : Writes p cs node) : 0 < width cs := by
  obtain ⟨ch, tail, rfl, -⟩ := h.head
  have := ch.utf8Size_pos
  rw [width_cons]
  omega

theorem Json.WritesItems.spaced (h : WritesItems p cs items) :
    Spaced p (p + width cs) (items.map Node.span) := by
  induction items generalizing p cs with
  | nil => exact spaced_nil
  | cons item items ih =>
    obtain ⟨before, own, after, rest, rfl, -, hown, -, htail⟩ := h
    have hpos := hown.width_pos
    have hspan := hown.span_eq
    rw [List.map_cons, hspan]
    simp only [width_append]
    rcases htail with ⟨rfl, rfl⟩ | ⟨-, tail, rfl, hitems⟩
    · exact .cons (r := p + width before + width own + 1) (by simp) hpos (by simp)
        (by dsimp only; omega) spaced_nil
    · have hcomma : ','.utf8Size = 1 := by decide
      rw [width_cons, hcomma]
      refine .cons (by simp) hpos (r := p + width before + width own + width after + 1)
        (by dsimp only; omega) (by dsimp only; omega) ((ih hitems).mono (Nat.le_refl _) (by omega))

theorem Json.WritesMembers.spaced (h : WritesMembers p cs members) :
    Spaced p (p + width cs) (members.map (·.2.span)) := by
  induction members generalizing p cs with
  | nil => exact spaced_nil
  | cons member members ih =>
    obtain ⟨head, before, own, after, rest, rfl, -, -, hown, -, htail⟩ := h
    have hpos := hown.width_pos
    have hspan := hown.span_eq
    rw [List.map_cons, hspan]
    simp only [width_append]
    rcases htail with ⟨rfl, rfl⟩ | ⟨-, tail, rfl, hmembers⟩
    · exact .cons (r := p + width head + width before + width own + 1) (by dsimp only; omega) hpos
        (by simp) (by dsimp only; omega) spaced_nil
    · have hcomma : ','.utf8Size = 1 := by decide
      rw [width_cons, hcomma]
      refine .cons (by dsimp only; omega) hpos
        (r := p + width head + width before + width own + width after + 1)
        (by dsimp only; omega) (by dsimp only; omega)
        ((ih hmembers).mono (Nat.le_refl _) (by omega))

/-- **The parts right inside a value follow one another**, past its first and before its last
byte. -/
theorem Json.Writes.spaced_children (h : Writes p cs node) :
    Spaced (p + 1) (p + width cs - 1) (node.children.map Node.span) := by
  cases node with
  | array span items =>
    obtain ⟨-, inner, rfl, hitems⟩ := h
    rw [Node.children, Node.width_bracketed (by decide) (by decide)]
    exact hitems.spaced.mono (Nat.le_refl _) (by omega)
  | object span members =>
    obtain ⟨-, inner, rfl, hmembers⟩ := h
    rw [Node.children, Node.width_bracketed (by decide) (by decide), List.map_map]
    exact hmembers.spaced.mono (Nat.le_refl _) (by omega)
  | _ => exact spaced_nil

/-- An array has fewer items than bytes. -/
theorem Json.Writes.length_items_le {span : Span} (h : Writes p cs (.array span items)) :
    items.length ≤ width cs := by
  have hlength := h.spaced_children.length_le
  rw [Node.children, List.length_map] at hlength
  omega

/-! ## Every part of a scanned cell -/

/-- No blank stands at either end. -/
def Trimmed (cs : List Char) : Prop :=
  (∀ ch ∈ cs.head?, Cursor.isBlank ch = false) ∧ ∀ ch ∈ cs.getLast?, Cursor.isBlank ch = false

theorem Json.Writes.trimmed (h : Writes p cs node) : Trimmed cs := by
  refine ⟨?_, fun ch hch => ?_⟩
  · obtain ⟨ch, tail, rfl, hch⟩ := h.head
    exact starts_cons (isBlank_of_isFirst hch)
  · rcases h.last hch with hmem | hdigit
    · simp only [List.mem_cons, List.not_mem_nil, or_false] at hmem
      rcases hmem with rfl | rfl | rfl | rfl | rfl <;> decide
    · exact isBlank_of_isFirst (.inr hdigit)

/-- The type of a cell is told from the cells right inside it. -/
def Schema.TypesBy (t : Schema) : Cell → Prop
  | .leaf _ type => type ∈ [.null, .boolean, .integer, .real, .text]
  | .array _ type cells =>
    t.get? type = some (.composite (.array (t.unionAll (cells.map Cell.type)).1))
  | .record _ type members => (members.map (·.1)).Nodup ∧
    ∃ fields, t.get? type = some (.composite (.record fields)) ∧
      (Cell.memberFields members).Perm fields

/-- What a scan of a span made of one value of its text. -/
structure ScannedPart (source : ByteSource) (span : Span) (t : Schema) (m : Node) (c : Cell) :
    Prop where
  /-- The cell has the shape, the spans, the kinds and the names of the value. -/
  outline_eq : t.parseOutline c = m.outline
  /-- It lies inside the span that was scanned. -/
  inside : span.offset ≤ c.span.offset ∧ c.span.offset + c.span.len ≤ span.stop
  /-- It covers the text of the value, no blanks around it. -/
  covers : ∃ own, source.slice c.span = own.utf8Encode ∧ Writes c.span.offset own m ∧ Trimmed own
  /-- The parts right inside it follow one another, strictly inside it. -/
  spaced : Spaced (c.span.offset + 1) (c.span.offset + c.span.len - 1) (c.children.map Cell.span)
  /-- The members have the numbers of the names that their keys spell, in their order. -/
  names : ∀ span members, m = .object span members → List.Forall₂ (fun key id =>
    ∃ name, Key.Spells key name ∧ t.name? id = some name) (members.map (·.1)) (c.members.map (·.1))
  /-- A number is an integer when its literal has neither point nor exponent. -/
  number : ∀ (own : List Char) span numeral, m = .number span numeral →
    source.slice c.span = own.utf8Encode →
      c.type = if '.' ∉ own ∧ 'e' ∉ own ∧ 'E' ∉ own then .integer else .real
  types : t.TypesBy c
  not_any : c.type ≠ .any

theorem Schema.unionAll_eq_of_isLUB {ids : List TypeId} {element : TypeId} (hs : s.WellFormed)
    (hids : ∀ id ∈ ids, s.Knows id) (he : s.Knows element)
    (h : IsLUB {u | ∃ id ∈ ids, s.tree id = u} (s.tree element)) :
    (s.unionAll ids).1 = element := by
  have hj := joinsAll_unionAll hs hids
  have hkeep := tree_of_extends hs hj.wellFormed hj.extended he
  refine tree_injective hj.wellFormed hj.knows (hj.extended.knows he) (hkeep ▸ ?_)
  refine eq_of_forall_ge_iff fun u => ?_
  rw [hj.le_iff, tree_null, and_iff_right (TypeTree.null_le u), isLUB_le_iff h]
  simp [upperBounds]

theorem Scanned.typesBy (ht : t.WellFormed) (h : Scanned t node cell) : t.TypesBy cell := by
  cases node with
  | array span items =>
    obtain ⟨type, cells, element, rfl, hitems, hget, hlub⟩ := h
    have hunion : (t.unionAll (cells.map Cell.type)).1 = element := by
      refine Schema.unionAll_eq_of_isLUB ht ?_ (ht.knows_element hget) ?_
      · simpa using hitems.knows
      · simpa [Schema.treesOf] using hlub
    rwa [Schema.TypesBy, hunion]
  | object span members =>
    obtain ⟨type, cells, fields, rfl, hmembers, hnd, hget, hperm⟩ := h
    exact ⟨hnd, fields, hget, hperm⟩
  | number span numeral =>
    simp only [Scanned] at h
    subst h
    rw [Schema.TypesBy]
    cases numeral.isIntegral <;> decide
  | _ =>
    simp only [Scanned] at h
    subst h
    simp [Schema.TypesBy]

theorem Schema.TypesBy.ne_any (h : t.TypesBy cell) : cell.type ≠ .any := by
  rintro heq
  cases cell with
  | leaf span type =>
    rw [Cell.type] at heq
    subst heq
    revert h
    rw [Schema.TypesBy]
    decide
  | array span type cells =>
    rw [Cell.type] at heq
    subst heq
    rw [Schema.TypesBy, Schema.get?_any] at h
    cases h
  | record span type members =>
    rw [Cell.type] at heq
    subst heq
    obtain ⟨-, fields, hget, -⟩ := h
    cases hget

theorem ScannedMembers.forall₂_spells (hw : ∀ m ∈ members, Literal.Written m.1.raw)
    (h : ScannedMembers t members fields) : List.Forall₂ (fun key id =>
      ∃ name, Key.Spells key name ∧ t.name? id = some name)
        (members.map (·.1)) (fields.map (·.1)) := by
  rw [List.forall₂_map_left_iff, List.forall₂_map_right_iff]
  refine ((List.forall₂_and_left ..).mpr ⟨hw, h.forall₂⟩).imp ?_
  rintro member entry ⟨hwritten, -, name, hname, hid⟩
  exact ⟨name, (Key.name?_eq_some_iff hwritten).mp hname, hid⟩

/-- A part of a value that is written inside a span, and its image. -/
theorem scannedPart_of_writes (ht : t.WellFormed) (hshows : source.Shows p own)
    (hstart : span.offset ≤ p) (hstop : p + width own ≤ span.stop) (hown : Writes p own m)
    (h : Scanned t m c) : ScannedPart source span t m c := by
  have hspan : c.span = ⟨p, width own⟩ := h.span_eq.trans hown.span_eq
  have hslice : source.slice c.span = own.utf8Encode := hspan ▸ hshows.slice_eq
  have htypes := h.typesBy ht
  refine ⟨h.parseOutline_eq, hspan ▸ ⟨hstart, hstop⟩, ⟨own, hslice, hspan ▸ hown, hown.trimmed⟩,
    ?_, ?_, ?_, htypes, htypes.ne_any⟩
  · rw [h.children_span, hspan]
    exact hown.spaced_children
  · rintro span members rfl
    have hwritten := hown.writtenNames span members .self
    obtain ⟨type, cells, fields, rfl, hmembers, -⟩ := h
    exact hmembers.forall₂_spells hwritten
  · rintro own' span numeral rfl hslice'
    have heq : own' = own := utf8Encode_inj (hslice'.symm.trans hslice)
    subst heq
    simp only [Scanned] at h
    rw [h, Cell.type]
    exact if_congr (Numeral.isIntegral_iff hown.2) rfl rfl

/-- **A scanned cell is the parse tree of its text**, part by part. -/
theorem Scanner.scan_parseTree (hs : s.Reachable)
    (h : scanner.scan source s span = (.ok cell, t)) :
    ∃ text node, source.slice span = text.utf8Encode ∧ Document span.offset text node ∧
      t.parseOutline cell = node.outline ∧
        ∀ c, c.Part cell → ∃ m, m.Part node ∧ ScannedPart source span t m c := by
  rw [Scanner.scan] at h
  cases hread : readTree source span with
  | error e => simp [hread] at h
  | ok node =>
    simp only [hread] at h
    have hscans : Scans s node (scanner.scanNode source 0 s node) := scans_scanNode hs.wellFormed
    rw [h] at hscans
    have hcell := hscans.scanned cell rfl
    obtain ⟨before, own, after, hshows, hbefore, hown, hafter, hstop, hslice⟩ :=
      shows_of_readTree hread
    refine ⟨_, node, hslice, ⟨before, own, after, rfl, hbefore, hown, hafter⟩,
      hcell.parseOutline_eq, fun c hc => ?_⟩
    obtain ⟨m, hm, hmc⟩ := hcell.part hc
    obtain ⟨first, text, last, rfl, htext⟩ := hown.holds hm
    simp only [width_append] at hstop
    exact ⟨m, hm, scannedPart_of_writes hscans.wellFormed hshows.within.within (by omega) (by omega)
      htext hmc⟩

/-- An object with an array of an integer and a real, between blanks. -/
def mixedArray : ByteSource := .ofString " \x7b\"a\": [1, 2e3]\x7d "

theorem Scanner.scan_parseTree_mixedArray : ∃ cell t,
    Scanner.scan {} mixedArray .empty ⟨0, 17⟩ = (.ok cell, t) ∧ ∃ text node,
      mixedArray.slice ⟨0, 17⟩ = text.utf8Encode ∧ Document 0 text node ∧
        t.parseOutline cell = node.outline ∧
          ∀ c, c.Part cell → ∃ m, m.Part node ∧ ScannedPart mixedArray ⟨0, 17⟩ t m c := by
  have hscan : (Scanner.scan {} mixedArray .empty ⟨0, 17⟩).1.toOption.isSome = true := by
    decide +kernel
  generalize hr : Scanner.scan {} mixedArray .empty ⟨0, 17⟩ = r at hscan
  obtain ⟨outcome, t⟩ := r
  cases outcome with
  | error e => cases hscan
  | ok cell => exact ⟨cell, t, rfl, Scanner.scan_parseTree .refl hr⟩

end JsonLines
