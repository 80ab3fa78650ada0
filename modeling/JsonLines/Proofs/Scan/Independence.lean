/-
JsonLines.Proofs.Scan.Independence — a scan does not depend on what the schema holds.

The numbers that a scan gives out depend on the schema that it starts from: which names are known
already, which types are registered. Nothing else does. Whether a value is refused, and with which
error, is read off the value alone (`refuses_scanNode`); and what an accepted value becomes says the
same over spans and texts in every schema. `Schema.typedOutline` is a cell without the numbers of
its schema. It leaves nothing out: every name of a member has a text, and the tree of a type over
texts becomes the tree over numbers when the numbers are put back (`Scanned.relabel_namedTree`).
-/
import JsonLines.Proofs.Scan.Acceptance
import JsonLines.Proofs.Scan.Growth
import JsonLines.Proofs.Scan.ValueType
import JsonLines.Proofs.Schema.Reachable

namespace JsonLines

open Json

variable {s t : Schema} {node : Node} {cell c d : Cell} {fields : List Field} {n : NameId}
  {name : String}

/-- A cell without the numbers of its schema: its shape, the span and the type at every value, and
the names of members, types and names spelled out in texts. -/
def Schema.typedOutline (s : Schema) (cell : Cell) :
    Outline (Span × TypeTree String) (Option String) :=
  cell.outline (fun span type => (span, s.namedTree type)) s.name?

/-! ## Nothing is lost over texts -/

theorem Schema.fieldNamed?_of_name? (hn : s.name? n = some name) :
    s.fieldNamed? fields name = Field.named? fields n := by
  rw [fieldNamed?, nameId?_eq_some_iff.mpr hn]
  rfl

/-- A record type is recovered from texts if each of its fields has a name and a type that is. -/
theorem Schema.relabel_namedTree_record {id : TypeId} (hs : s.WellFormed)
    (hget : s.get? id = some (.composite (.record fields)))
    (hnames : ∀ f ∈ fields, ∃ name, s.name? f.name = some name)
    (htypes : ∀ f ∈ fields, (s.namedTree f.type).relabel s.name? = s.tree f.type) :
    (s.namedTree id).relabel s.name? = s.tree id := by
  rw [namedTree_record hs hget, tree_record hs hget]
  simp only [recordTree, TypeTree.relabel, TypeTree.record.injEq]
  have hnone : ∀ n, s.name? n = none → Field.named? fields n = none := by
    intro n hn
    refine Option.eq_none_iff_forall_ne_some.mpr fun f hf => ?_
    obtain ⟨name, hname⟩ := hnames f (Field.mem_of_named? hf)
    rw [Field.name_of_named? hf, hn] at hname
    cases hname
  constructor <;> funext n <;> cases hn : s.name? n with
  | none => simp [hnone n hn, Presence.ofField?, treeOf?]
  | some name =>
    simp only [fieldNamed?_of_name? hn]
    try cases hf : Field.named? fields n with
    | none => rfl
    | some f => exact htypes f (Field.mem_of_named? hf)

/-- **The type of an image is recovered from its tree over texts.** -/
theorem Scanned.relabel_namedTree (hs : s.WellFormed) (h : Scanned s node c) :
    (s.namedTree c.type).relabel s.name? = s.tree c.type := by
  induction node generalizing c with
  | array span items ih =>
    obtain ⟨type, cells, element, rfl, hitems, hget, hlub⟩ := h
    have helement : (s.namedTree element).relabel s.name? = s.tree element := by
      rw [Schema.namedTree_of_isLUB hlub, Schema.tree_of_isLUB hlub, TypeTree.relabel_joinAll,
        List.map_map]
      refine congrArg TypeTree.joinAll (List.map_congr_left fun d hd => ?_)
      obtain ⟨item, hitem, hscanned⟩ := hitems.exists_item hd
      exact ih item hitem hscanned
    rw [Cell.type, Schema.namedTree_array hs hget, Schema.tree_array hs hget, TypeTree.relabel,
      helement]
  | object span members ih =>
    obtain ⟨type, cells, registered, rfl, hmembers, -, hget, hperm⟩ := h
    refine Schema.relabel_namedTree_record hs hget ?_ ?_ <;> intro f hf <;>
      obtain ⟨⟨id, d⟩, hentry, rfl⟩ := List.mem_map.mp (hperm.mem_iff.mpr hf)
    · exact hmembers.exists_name hentry
    · obtain ⟨key, value, hvalue, hscanned⟩ := hmembers.exists_member hentry
      exact ih (key, value) hvalue hscanned
  | number span numeral =>
    simp only [Scanned] at h
    rw [h, Cell.type]
    cases numeral.isIntegral <;> simp [TypeTree.relabel]
  | _ =>
    simp only [Scanned] at h
    rw [h]
    simp [Cell.type, TypeTree.relabel]

/-- The schema spells the cell out: it has a text for the name of every member in it, and the type
of every part is what its tree over texts says. -/
structure Schema.SpellsOut (s : Schema) (cell : Cell) : Prop where
  names : ∀ span type members, (Cell.record span type members).Part cell →
    ∀ entry ∈ members, ∃ name, s.name? entry.1 = some name
  types : ∀ c : Cell, c.Part cell → (s.namedTree c.type).relabel s.name? = s.tree c.type

theorem Scanned.spellsOut (hs : s.WellFormed) (h : Scanned s node cell) : s.SpellsOut cell where
  names span type members hpart entry hentry := by
    obtain ⟨m, -, hscanned⟩ := h.part hpart
    obtain ⟨members', -, hmembers⟩ := hscanned.exists_members
    exact hmembers.exists_name hentry
  types c hc := by
    obtain ⟨m, -, hscanned⟩ := h.part hc
    exact hscanned.relabel_namedTree hs

/-! ## Two scans -/

/-- The cells say the same, each in its schema: they have the same shape, the same spans, the same
names of members and the same types over the texts of names, and these texts tell all there is. -/
structure SameReading (s t : Schema) (c d : Cell) : Prop where
  outline_eq : t.typedOutline d = s.typedOutline c
  spellsOut : s.SpellsOut c
  spellsOut' : t.SpellsOut d

/-- The same error, or cells that say the same. -/
def SameOutcome : Except ScanError Cell × Schema → Except ScanError Cell × Schema → Prop
  | (.error e, _), (.error e', _) => e = e'
  | (.ok c, s), (.ok d, t) => SameReading s t c d
  | _, _ => False

theorem Scanned.sameReading (hs : s.WellFormed) (ht : t.WellFormed) (h : Scanned s node c)
    (h' : Scanned t node d) : SameReading s t c d where
  outline_eq := h'.outline_eq_outline (fun hd hc =>
    Prod.ext (hd.span_eq.trans hc.span_eq.symm) (hc.namedTree_eq_namedTree hs ht hd)) h
  spellsOut := h.spellsOut hs
  spellsOut' := h'.spellsOut ht

/-- One value in two schemas is refused with one error or becomes cells that say the same. -/
theorem sameOutcome_scanNode (hs : s.WellFormed) (ht : t.WellFormed) (scanner : Scanner)
    (source : ByteSource) (depth : Nat) (node : Node) :
    SameOutcome (scanner.scanNode source depth s node)
      (scanner.scanNode source depth t node) := by
  have hrefusal := (refuses_scanNode source scanner depth s node).refusal_eq.trans
    (refuses_scanNode source scanner depth t node).refusal_eq.symm
  have hscans : Scans s node (scanner.scanNode source depth s node) := scans_scanNode hs
  have hscans' : Scans t node (scanner.scanNode source depth t node) := scans_scanNode ht
  generalize scanner.scanNode source depth s node = r at hrefusal hscans
  generalize scanner.scanNode source depth t node = r' at hrefusal hscans'
  obtain ⟨outcome, s₁⟩ := r
  obtain ⟨outcome', t₁⟩ := r'
  cases outcome with
  | error e =>
    cases outcome' with
    | error e' => exact Option.some.inj hrefusal
    | ok d => cases hrefusal
  | ok c =>
    cases outcome' with
    | error e' => cases hrefusal
    | ok d =>
      exact (hscans.scanned c rfl).sameReading hscans.wellFormed hscans'.wellFormed
        (hscans'.scanned d rfl)

/-- **The outcome of a scan does not depend on what the schema already holds**: from any two
schemas the same text is refused with the same error, or is scanned to cells that have the same
shape and spans, the same names at every object and the same types over texts at every value. -/
theorem Scanner.scan_independent (hs : s.Reachable) (ht : t.Reachable) (scanner : Scanner)
    (source : ByteSource) (span : Span) :
    SameOutcome (scanner.scan source s span) (scanner.scan source t span) := by
  rw [scan, scan]
  cases readTree source span with
  | error e => exact rfl
  | ok node => exact sameOutcome_scanNode hs.wellFormed ht.wellFormed scanner source 0 node

/-- Two records and a list, whose names and types are new to an empty schema. -/
def mixedRecords : ByteSource :=
  .ofString "[\x7b\"a\":1\x7d, \x7b\"b\":[], \"a\":0.5\x7d]"

/-- A schema that knows one of the names, under the number that the other gets first, and a list of
texts. -/
def Schema.withTexts : Schema := ((Schema.empty.intern "b").2.array .text).2

theorem Scanner.scan_independent_mixedRecords :
    Schema.Reachable .empty ∧ Schema.Reachable .withTexts ∧
      (Scanner.scan {} mixedRecords .empty ⟨0, 28⟩).1.toOption.map Cell.type = some ⟨10⟩ ∧
      (Scanner.scan {} mixedRecords .withTexts ⟨0, 28⟩).1.toOption.map Cell.type = some ⟨11⟩ ∧
      SameOutcome (Scanner.scan {} mixedRecords .empty ⟨0, 28⟩)
        (Scanner.scan {} mixedRecords .withTexts ⟨0, 28⟩) := by
  have htexts : Schema.Reachable .withTexts :=
    .tail (.single (.intern .empty "b")) (.array (by decide +kernel))
  exact ⟨.refl, htexts, by decide +kernel, by decide +kernel,
    Scanner.scan_independent .refl htexts {} mixedRecords ⟨0, 28⟩⟩

end JsonLines
