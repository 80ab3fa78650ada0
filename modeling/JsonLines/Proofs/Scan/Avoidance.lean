/-
JsonLines.Proofs.Scan.Avoidance — what a scan registers of values without a name.

If a name occurs in no object inside a value, scanning the value registers no record type that has
the name, neither for an object nor for a union of items. A property of the record types that are
there passes to those that are registered, if it holds for the objects in the value
(`scanNode_avoids`).
-/
import JsonLines.Proofs.Scan.Steps
import JsonLines.Proofs.Schema.Avoidance

namespace JsonLines

open Json

/-- The record of each object in the value has the property and lacks the name, in every schema that
grows to the one that is given. -/
def Json.Node.RecordsIn (u : Schema) (P : List Field → Prop) (n : NameId) (node : Node) : Prop :=
  ∀ span members, (Node.object span members).Part node →
    ∀ (s : Schema) (cells : List (NameId × Cell)), s.Extends u → ScannedMembers s members cells →
      P (Cell.memberFields cells) ∧ n ∉ (Cell.memberFields cells).map (·.name)

namespace Scanner

variable {source : ByteSource} {scanner : Scanner} {depth : Nat} {s t u : Schema}
  {node : Node} {items : List Node} {members : List (Key × Node)} {names : List String}
  {seen : List NameId} {element type : TypeId} {cell : Cell} {cells : List Cell}
  {fields : List (NameId × Cell)} {n : NameId} {P : List Field → Prop}

theorem recordsIn_part {m : Node} (h : node.RecordsIn u P n) (hm : m.Part node) :
    m.RecordsIn u P n := fun span members hpart => h span members (hpart.trans hm)

variable (hmerge : ∀ fields others merged, P fields → P others →
  Schema.Merges fields others merged → n ∉ merged.map (·.name) → P merged)

include hmerge

theorem scanItems_avoids
    (ih : ∀ item ∈ items, ∀ {s t : Schema} {cell : Cell}, s.WellFormed → s.EveryRecord P →
      scanner.scanNode source depth s item = (.ok cell, t) → t.Extends u →
        t.EveryRecord P ∧ t.Avoids n cell.type)
    (hs : s.WellFormed) (hP : s.EveryRecord P) (he : s.Avoids n element)
    (h : scanner.scanItems source depth s element items = (.ok (cells, type), t))
    (hu : t.Extends u) : t.EveryRecord P ∧ t.Avoids n type := by
  induction items generalizing s element cells with
  | nil =>
    obtain ⟨-, rfl, rfl⟩ := scanItems_nil_eq_ok_iff.mp h
    exact ⟨hP, he⟩
  | cons item items ih' =>
    obtain ⟨c, s₁, cs, rfl, hitem, hscans, hjoin, hrest, hext⟩ := scanItems_cons_cases hs he.knows h
    obtain ⟨hP₁, hc⟩ :=
      ih item List.mem_cons_self hs hP hitem (hjoin.extended.trans (hext.trans hu))
    obtain ⟨hP₂, hunion⟩ :=
      Schema.union_avoids hmerge hscans.wellFormed hP₁ (he.of_extends hscans.extended) hc
    exact ih' (fun i hi => ih i (List.mem_cons_of_mem _ hi)) hjoin.wellFormed hP₂ hunion hrest

omit hmerge in
theorem scanMembers_avoids
    (ih : ∀ m ∈ members, ∀ {s t : Schema} {cell : Cell}, s.WellFormed → s.EveryRecord P →
      scanner.scanNode source depth s m.2 = (.ok cell, t) → t.Extends u →
        t.EveryRecord P ∧ t.Avoids n cell.type)
    (hnames : decodeNames members = .ok names) (hs : s.WellFormed) (hP : s.EveryRecord P)
    (h : scanner.scanMembers source depth s seen names members = (.ok fields, t))
    (hu : t.Extends u) : t.EveryRecord P ∧ ∀ entry ∈ fields, t.Avoids n entry.2.type := by
  induction members generalizing s seen names fields with
  | nil =>
    obtain ⟨rfl, rfl⟩ := scanMembers_nil_eq_ok_iff.mp h
    exact ⟨hP, by simp⟩
  | cons member members ih' =>
    obtain ⟨name, rest, c, s₁, cs, rfl, rfl, hrestNames, -, hintern, hvalue, hscans, hrest, hext⟩ :=
      scanMembers_cons_cases hnames hs h
    obtain ⟨hP₁, hc⟩ :=
      ih member List.mem_cons_self hintern.wellFormed (hP.intern name) hvalue (hext.trans hu)
    obtain ⟨hP₂, hall⟩ := ih' (fun m hm => ih m (List.mem_cons_of_mem _ hm)) hrestNames
      hscans.wellFormed hP₁ hrest
    exact ⟨hP₂, List.forall_mem_cons.mpr ⟨hc.of_extends hext, hall⟩⟩

/-- **Scanning a value without a name** registers no record type that has it. -/
theorem scanNode_avoids (hs : s.WellFormed) (hP : s.EveryRecord P) (hnode : node.RecordsIn u P n)
    (h : scanner.scanNode source depth s node = (.ok cell, t)) (hu : t.Extends u) :
    t.EveryRecord P ∧ t.Avoids n cell.type := by
  induction node generalizing s t depth cell with
  | array span items ih =>
    obtain ⟨cs, joined, s₁, -, rfl, hitems, hregisters, rfl⟩ := scanNode_array_cases hs h
    obtain ⟨hP', helement⟩ := scanItems_avoids hmerge
      (fun item hitem _ _ _ hs hP =>
        ih item hitem hs hP (recordsIn_part hnode (.item hitem .self))) hs hP (.primitive rfl)
      hitems (hregisters.extended.trans hu)
    exact ⟨hP'.register (by simp), hregisters.avoids (by simpa [Composite.parts])
      (by simp [Composite.names])⟩
  | object span members ih =>
    obtain ⟨names, cs, s₁, -, hnames, rfl, hmembers, hregisters, rfl⟩ := scanNode_object_cases hs h
    have hscans : ScansMembers s [] members (.ok cs, s₁) :=
      hmembers ▸ scansMembers_scanMembers (fun _ _ _ => scans_scanNode) hnames hs
    have hext := hregisters.extended.trans hu
    obtain ⟨hP', hall⟩ := scanMembers_avoids
      (fun m hm _ _ _ hs hP => ih m hm hs hP (recordsIn_part hnode (.member hm .self))) hnames hs hP
      hmembers hext
    obtain ⟨hrecord, hn⟩ := hnode span members .self s₁ cs hext (hscans.scanned cs rfl)
    refine ⟨hP'.register fun _ heq => ?_, hregisters.avoids ?_ hn⟩
    · cases heq
      exact hrecord
    · rw [Composite.parts, Cell.memberFields, List.map_map, List.forall_mem_map]
      exact hall
  | number span numeral =>
    cases h
    rw [Cell.type]
    split <;> exact ⟨hP, .primitive rfl⟩
  | _ =>
    cases h
    exact ⟨hP, .primitive rfl⟩

end Scanner

end JsonLines
