/-
JsonLines.Proofs.Scan.Repetition — what was scanned once scans again to the same cell.

A successful scan leaves its names, its unions and its types in the schema. Scanned again in any
later schema the value finds all of them at the same numbers, so the cell is the same and nothing is
registered (`scanNode_again`). Every part of the cell came from such a scan of its own, in the schema
of that moment (`exists_scannedBefore_of_part`), and its span reads as that part alone; that it is
now read from outside, with no containers around it, can only leave more room for its nesting.
-/
import JsonLines.Proofs.Scan.Parts
import JsonLines.Proofs.Scan.Rereading
import JsonLines.Proofs.Scan.Steps
import JsonLines.Proofs.Schema.Repetition

namespace JsonLines

open Json Scanner

variable {source : ByteSource} {scanner : Scanner} {depth depth' : Nat} {s t u : Schema}
  {span : Span} {node : Node} {items : List Node} {members : List (Key × Node)}
  {names : List String} {seen : List NameId} {element type : TypeId} {cell c : Cell}
  {cells : List Cell} {fields : List (NameId × Cell)} {n : NameId}

/-! ## Values -/

theorem scanItems_again
    (ih : ∀ item ∈ items, ∀ {s t : Schema} {cell : Cell}, s.WellFormed →
      scanner.scanNode source depth s item = (.ok cell, t) → t.Extends u →
        scanner.scanNode source depth' u item = (.ok cell, u))
    (hs : s.WellFormed) (hu : u.WellFormed) (he : s.Knows element)
    (h : scanner.scanItems source depth s element items = (.ok (cells, type), t))
    (htu : t.Extends u) :
    scanner.scanItems source depth' u element items = (.ok (cells, type), u) := by
  induction items generalizing s element cells with
  | nil =>
    obtain ⟨rfl, rfl, -⟩ := scanItems_nil_eq_ok_iff.mp h
    exact scanItems_nil_eq_ok_iff.mpr ⟨rfl, rfl, rfl⟩
  | cons item items ih' =>
    obtain ⟨c, s₁, cs, rfl, hitem, hscans, hjoin, hrest, hext⟩ := scanItems_cons_cases hs he h
    have hsu := hext.trans htu
    have hunion : u.union element c.type = ((s₁.union element c.type).1, u) :=
      Schema.union_again hscans.wellFormed hu (hscans.extended.knows he)
        (hscans.scanned c rfl).knows hsu
    have hitem' := ih item List.mem_cons_self hs hitem (hjoin.extended.trans hsu)
    have hrest' := ih' (fun i hi => ih i (List.mem_cons_of_mem _ hi)) hjoin.wellFormed hjoin.knows
      hrest
    exact scanItems_cons_eq_ok_iff.mpr ⟨c, u, cs, hitem', by rw [hunion]; exact hrest', rfl⟩

theorem scanMembers_again
    (ih : ∀ m ∈ members, ∀ {s t : Schema} {cell : Cell}, s.WellFormed →
      scanner.scanNode source depth s m.2 = (.ok cell, t) → t.Extends u →
        scanner.scanNode source depth' u m.2 = (.ok cell, u))
    (hnames : decodeNames members = .ok names) (hs : s.WellFormed)
    (h : scanner.scanMembers source depth s seen names members = (.ok fields, t))
    (htu : t.Extends u) :
    scanner.scanMembers source depth' u seen names members = (.ok fields, u) := by
  induction members generalizing s seen names fields with
  | nil =>
    obtain ⟨rfl, -⟩ := scanMembers_nil_eq_ok_iff.mp h
    exact scanMembers_nil_eq_ok_iff.mpr ⟨rfl, rfl⟩
  | cons member members ih' =>
    obtain ⟨name, rest, c, s₁, cs, rfl, rfl, hrestNames, hseen, hintern, hvalue, hscans, hrest,
      hext⟩ := scanMembers_cons_cases hnames hs h
    have hsu := hext.trans htu
    have hname : u.intern name = ((s.intern name).1, u) :=
      hintern.again (hscans.extended.trans hsu)
    have hvalue' := ih member List.mem_cons_self hintern.wellFormed hvalue hsu
    have hrest' := ih' (fun m hm => ih m (List.mem_cons_of_mem _ hm)) hrestNames hscans.wellFormed
      hrest
    -- The name has the number that it had, so it is new among the same numbers.
    rw [scanMembers_cons_eq_ok_iff, hname]
    exact ⟨hseen, c, u, cs, hvalue', hrest', rfl⟩

/-- **A value that scanned scans again** to the same cell, in any later schema and inside no more
containers, and registers nothing. -/
theorem scanNode_again (hs : s.WellFormed) (hu : u.WellFormed)
    (h : scanner.scanNode source depth s node = (.ok cell, t)) (htu : t.Extends u)
    (hdepth : depth' ≤ depth) : scanner.scanNode source depth' u node = (.ok cell, u) := by
  induction node generalizing depth depth' s t cell with
  | array span items ih =>
    obtain ⟨cs, joined, s₁, hlt, rfl, hitems, hregister, rfl⟩ := scanNode_array_cases hs h
    have hitems' : scanner.scanItems source (depth' + 1) u .null items = (.ok (cs, joined), u) :=
      scanItems_again (fun i hi _ _ _ hs h htu => ih i hi hs h htu (Nat.succ_le_succ hdepth)) hs hu
        Schema.knows_null hitems (hregister.extended.trans htu)
    have hagain : u.array joined = ((s₁.array joined).1, u) := hregister.again htu
    rw [scanNode_array_eq_ok_iff]
    exact ⟨Nat.lt_of_le_of_lt hdepth hlt, cs, joined, u, hitems', by rw [hagain], by rw [hagain]⟩
  | object span members ih =>
    obtain ⟨names, cs, s₁, hlt, hnames, rfl, hmembers, hregister, rfl⟩ :=
      scanNode_object_cases hs h
    have hmembers' : scanner.scanMembers source (depth' + 1) u [] names members = (.ok cs, u) :=
      scanMembers_again (fun m hm _ _ _ hs h htu => ih m hm hs h htu (Nat.succ_le_succ hdepth))
        hnames hs hmembers (hregister.extended.trans htu)
    have hagain : u.record (Cell.memberFields cs) = ((s₁.record (Cell.memberFields cs)).1, u) :=
      hregister.again htu
    rw [scanNode_object_eq_ok_iff]
    exact ⟨Nat.lt_of_le_of_lt hdepth hlt, names, cs, u, hnames, hmembers', by rw [hagain],
      by rw [hagain]⟩
  | _ =>
    rw [scanNode] at h ⊢
    cases h
    rfl

/-! ## Parts -/

/-- The cell was scanned from the value at some depth, in a well-formed schema that the given one
has come from. -/
def ScannedBefore (scanner : Scanner) (source : ByteSource) (node : Node) (cell : Cell)
    (t : Schema) : Prop :=
  ∃ depth s₁ t₁, s₁.WellFormed ∧ scanner.scanNode source depth s₁ node = (.ok cell, t₁) ∧
    t₁.Extends t

theorem ScannedBefore.of_extends (h : ScannedBefore scanner source node cell s)
    (hst : s.Extends t) : ScannedBefore scanner source node cell t := by
  obtain ⟨depth, s₁, t₁, hs₁, hscan, hext⟩ := h
  exact ⟨depth, s₁, t₁, hs₁, hscan, hext.trans hst⟩

theorem scannedBefore_of_mem_items (hs : s.WellFormed) (he : s.Knows element)
    (h : scanner.scanItems source depth s element items = (.ok (cells, type), t))
    (hc : c ∈ cells) : ∃ item ∈ items, ScannedBefore scanner source item c t := by
  induction items generalizing s element cells with
  | nil =>
    obtain ⟨rfl, -⟩ := scanItems_nil_eq_ok_iff.mp h
    cases hc
  | cons item items ih =>
    obtain ⟨first, s₁, cs, rfl, hitem, -, hjoin, hrest, hext⟩ := scanItems_cons_cases hs he h
    rcases List.mem_cons.mp hc with rfl | hc
    · exact ⟨item, List.mem_cons_self, depth, s, s₁, hs, hitem, hjoin.extended.trans hext⟩
    · obtain ⟨other, hmem, hbefore⟩ := ih hjoin.wellFormed hjoin.knows hrest hc
      exact ⟨other, List.mem_cons_of_mem _ hmem, hbefore⟩

theorem scannedBefore_of_mem_members (hnames : decodeNames members = .ok names)
    (hs : s.WellFormed)
    (h : scanner.scanMembers source depth s seen names members = (.ok fields, t))
    (hc : (n, c) ∈ fields) : ∃ m ∈ members, ScannedBefore scanner source m.2 c t := by
  induction members generalizing s seen names fields with
  | nil =>
    obtain ⟨rfl, -⟩ := scanMembers_nil_eq_ok_iff.mp h
    cases hc
  | cons member members ih =>
    obtain ⟨name, rest, first, s₁, cs, rfl, rfl, hrestNames, -, hintern, hvalue, hscans, hrest,
      hext⟩ := scanMembers_cons_cases hnames hs h
    rcases List.mem_cons.mp hc with heq | hc
    · cases heq
      exact ⟨member, List.mem_cons_self, depth, _, s₁, hintern.wellFormed, hvalue, hext⟩
    · obtain ⟨other, hmem, hbefore⟩ := ih hrestNames hscans.wellFormed hrest hc
      exact ⟨other, List.mem_cons_of_mem _ hmem, hbefore⟩

/-- **Every part of a scanned cell came from a scan of its own.** -/
theorem exists_scannedBefore_of_part (hs : s.WellFormed)
    (h : scanner.scanNode source depth s node = (.ok cell, t)) (hc : c.Part cell) :
    ∃ m, m.Part node ∧ ScannedBefore scanner source m c t := by
  induction hc generalizing depth s t node with
  | self => exact ⟨node, .self, depth, s, t, hs, h, .refl t⟩
  | item hd _ ih =>
    have hscans : Scans s node (.ok (.array _ _ _), t) := h ▸ scans_scanNode hs
    obtain ⟨items, rfl, -⟩ := (hscans.scanned _ rfl).exists_items
    obtain ⟨cs, joined, s₁, -, heq, hitems, hregister, rfl⟩ := scanNode_array_cases hs h
    cases heq
    obtain ⟨item, hitem, depth', s₂, t₂, hs₂, hscan, hext⟩ :=
      scannedBefore_of_mem_items hs Schema.knows_null hitems hd
    obtain ⟨m, hm, hbefore⟩ := ih hs₂ hscan
    exact ⟨m, .item hitem hm, hbefore.of_extends (hext.trans hregister.extended)⟩
  | member hd _ ih =>
    have hscans : Scans s node (.ok (.record _ _ _), t) := h ▸ scans_scanNode hs
    obtain ⟨members, rfl, -⟩ := (hscans.scanned _ rfl).exists_members
    obtain ⟨names, cs, s₁, -, hnames, heq, hmembers, hregister, rfl⟩ := scanNode_object_cases hs h
    cases heq
    obtain ⟨member, hmember, depth', s₂, t₂, hs₂, hscan, hext⟩ :=
      scannedBefore_of_mem_members hnames hs hmembers hd
    obtain ⟨m, hm, hbefore⟩ := ih hs₂ hscan
    exact ⟨m, .member hmember hm, hbefore.of_extends (hext.trans hregister.extended)⟩

/-! ## Spans -/

/-- **Every node of a scanned cell scans again from its own span**: in any later schema, to the very
same node, and without any change to the schema. -/
theorem Scanner.scan_again (hs : s.Reachable) (h : scanner.scan source s span = (.ok cell, t))
    (htu : Schema.Later t u) (hc : c.Part cell) : scanner.scan source u c.span = (.ok c, u) := by
  rw [scan] at h
  cases hread : readTree source span with
  | error e => simp [hread] at h
  | ok node =>
    simp only [hread] at h
    have hscans : Scans s node (.ok cell, t) := h ▸ scans_scanNode hs.wellFormed
    obtain ⟨hu, hext⟩ := htu.extends hscans.wellFormed
    obtain ⟨m, hm, depth, s₁, t₁, hs₁, hscan, ht₁⟩ :=
      exists_scannedBefore_of_part hs.wellFormed h hc
    have hpart : Scans s₁ m (.ok c, t₁) := hscan ▸ scans_scanNode hs₁
    have hspan : c.span = m.span := (hpart.scanned c rfl).span_eq
    rw [scan, hspan, (readTree_part hread hm).1]
    exact scanNode_again hs₁ hu hscan (ht₁.trans hext) (Nat.zero_le depth)

/-- Objects whose types are joined step by step: an integer, then a real with an array beside it,
then nothing at all. -/
def growingObjects : ByteSource :=
  .ofString "[\x7b\"a\":1\x7d, \x7b\"a\":2.5, \"b\":[]\x7d, \x7b\x7d]"

/-- A schema some time later: another name is known, and an object with the name twice has left
what was scanned of it. -/
def Schema.afterFailure (t : Schema) : Schema :=
  (Scanner.scan {} (.ofString "\x7b\"b\":true,\"b\":1\x7d") (t.intern "z").2 ⟨0, 16⟩).2

theorem Scanner.scan_again_growingObjects : ∃ cell t c,
    Schema.Reachable .empty ∧ Scanner.scan {} growingObjects .empty ⟨0, 32⟩ = (.ok cell, t) ∧
      Schema.Later t t.afterFailure ∧ c.Part cell ∧ c.span = ⟨10, 17⟩ ∧
        Scanner.scan {} growingObjects t.afterFailure ⟨10, 17⟩ = (.ok c, t.afterFailure) := by
  have hspans : (Scanner.scan {} growingObjects .empty ⟨0, 32⟩).1.toOption.map
      (fun cell => cell.elements.map Cell.span) = some [⟨1, 7⟩, ⟨10, 17⟩, ⟨29, 2⟩] := by
    decide +kernel
  generalize hscan : Scanner.scan {} growingObjects .empty ⟨0, 32⟩ = r at hspans
  obtain ⟨outcome, t⟩ := r
  cases outcome with
  | error e => cases hspans
  | ok cell =>
    have hmem : (⟨10, 17⟩ : Span) ∈ cell.elements.map Cell.span := by
      rw [show cell.elements.map Cell.span = _ from Option.some.inj hspans]
      decide
    obtain ⟨c, hc, hspan⟩ := List.mem_map.mp hmem
    have hlater : Schema.Later t t.afterFailure :=
      .tail (.single (.intern t "z")) (.scan _ {} _ ⟨0, 16⟩)
    have hpart := Cell.part_of_mem_elements hc
    exact ⟨cell, t, c, .refl, rfl, hlater, hpart, hspan,
      hspan ▸ Scanner.scan_again .refl hscan hlater hpart⟩

end JsonLines
