/-
JsonLines.Proofs.Scan.Steps — a scan that succeeds, step by step.

One statement for each form of a value says what a successful scan of it has done and in which
order: which scans of parts succeeded before, in which schemas, what was interned, joined or
registered after them, and what the cell is made of. They hold in both directions, so that a proof
about successful scans goes along these steps instead of opening the scanner. Values without parts
scan to a leaf by definition.

`scanItems_cons_cases` and `scanMembers_cons_cases` add what each step makes sure of: that the schema
stays well formed and only grows, and that the type of a cell is known by the time it is used.
-/
import JsonLines.Proofs.Scan.Scanned

namespace JsonLines.Scanner

open Json

variable {source : ByteSource} {scanner : Scanner} {depth : Nat} {s t : Schema} {span : Span}
  {item : Node} {items : List Node} {member : Key × Node} {members : List (Key × Node)}
  {name : String} {names : List String} {seen : List NameId} {element type : TypeId} {cell : Cell}
  {cells : List Cell} {fields : List (NameId × Cell)}

/-- No items have no cells. -/
theorem scanItems_nil_eq_ok_iff :
    scanner.scanItems source depth s element [] = (.ok (cells, type), t) ↔
      cells = [] ∧ type = element ∧ t = s := by
  rw [scanItems]
  grind

/-- The first item is scanned, its type is joined, and the other items follow. -/
theorem scanItems_cons_eq_ok_iff :
    scanner.scanItems source depth s element (item :: items) = (.ok (cells, type), t) ↔
      ∃ c s₁ cs, scanner.scanNode source depth s item = (.ok c, s₁) ∧
        scanner.scanItems source depth (s₁.union element c.type).2 (s₁.union element c.type).1
          items = (.ok (cs, type), t) ∧ cells = c :: cs := by
  rw [scanItems]
  cases hitem : scanner.scanNode source depth s item with
  | mk outcome s₁ =>
  cases outcome with
  | error e => simp
  | ok c =>
    cases hrest : scanner.scanItems source depth (s₁.union element c.type).2
        (s₁.union element c.type).1 items with
    | mk outcome s₂ =>
    cases outcome with
    | error e => grind
    | ok result => grind

/-- No members have no cells. -/
theorem scanMembers_nil_eq_ok_iff :
    scanner.scanMembers source depth s seen names [] = (.ok fields, t) ↔ fields = [] ∧ t = s := by
  rw [scanMembers]
  grind

/-- The name of the first member is interned and new, its value is scanned, and the other members
follow. -/
theorem scanMembers_cons_eq_ok_iff :
    scanner.scanMembers source depth s seen (name :: names) (member :: members) = (.ok fields, t) ↔
      (s.intern name).1 ∉ seen ∧ ∃ c s₁ cs,
        scanner.scanNode source depth (s.intern name).2 member.2 = (.ok c, s₁) ∧
          scanner.scanMembers source depth s₁ ((s.intern name).1 :: seen) names members =
            (.ok cs, t) ∧ fields = ((s.intern name).1, c) :: cs := by
  rw [scanMembers]
  dsimp only
  split
  · rename_i hseen
    simp [hseen]
  rename_i hseen
  rw [and_iff_right hseen]
  cases hvalue : scanner.scanNode source depth (s.intern name).2 member.2 with
  | mk outcome s₁ =>
  cases outcome with
  | error e => simp
  | ok c =>
    cases hrest : scanner.scanMembers source depth s₁ ((s.intern name).1 :: seen) names
        members with
    | mk outcome s₂ =>
    cases outcome with
    | error e => grind
    | ok cs => grind

/-- The items are scanned one level further down, and the array over their union is registered. -/
theorem scanNode_array_eq_ok_iff :
    scanner.scanNode source depth s (.array span items) = (.ok cell, t) ↔
      depth < scanner.maxDepth ∧ ∃ cs joined s₁,
        scanner.scanItems source (depth + 1) s .null items = (.ok (cs, joined), s₁) ∧
          cell = .array span (s₁.array joined).1 cs ∧ t = (s₁.array joined).2 := by
  rw [scanNode]
  split
  · rename_i hdepth
    simp [Nat.not_lt.mpr hdepth]
  rename_i hdepth
  rw [and_iff_right (Nat.lt_of_not_le hdepth)]
  cases hitems : scanner.scanItems source (depth + 1) s .null items with
  | mk outcome s₁ =>
  cases outcome with
  | error e => simp
  | ok result => grind

/-- The names are decoded, the members are scanned one level further down, and the record of them is
registered. -/
theorem scanNode_object_eq_ok_iff :
    scanner.scanNode source depth s (.object span members) = (.ok cell, t) ↔
      depth < scanner.maxDepth ∧ ∃ names cs s₁, decodeNames members = .ok names ∧
        scanner.scanMembers source (depth + 1) s [] names members = (.ok cs, s₁) ∧
          cell = .record span (s₁.record (Cell.memberFields cs)).1 cs ∧
            t = (s₁.record (Cell.memberFields cs)).2 := by
  rw [scanNode]
  split
  · rename_i hdepth
    simp [Nat.not_lt.mpr hdepth]
  rename_i hdepth
  rw [and_iff_right (Nat.lt_of_not_le hdepth)]
  cases hnames : decodeNames members with
  | error fault => simp
  | ok names =>
    cases hmembers : scanner.scanMembers source (depth + 1) s [] names members with
    | mk outcome s₁ =>
    cases outcome with
    | error e => grind
    | ok cs => grind [Cell.memberFields]

/-! ## What each step makes sure of -/

theorem scanItems_cons_cases (hs : s.WellFormed) (he : s.Knows element)
    (h : scanner.scanItems source depth s element (item :: items) = (.ok (cells, type), t)) :
    ∃ c s₁ cs, cells = c :: cs ∧ scanner.scanNode source depth s item = (.ok c, s₁) ∧
      Scans s item (.ok c, s₁) ∧ s₁.Joins element c.type (s₁.union element c.type) ∧
        scanner.scanItems source depth (s₁.union element c.type).2 (s₁.union element c.type).1
          items = (.ok (cs, type), t) ∧ (s₁.union element c.type).2.Extends t := by
  obtain ⟨c, s₁, cs, hitem, hrest, rfl⟩ := scanItems_cons_eq_ok_iff.mp h
  have hscans : Scans s item (.ok c, s₁) := hitem ▸ scans_scanNode hs
  have hjoin := Schema.joins_union hscans.wellFormed (hscans.extended.knows he)
    (hscans.scanned c rfl).knows
  have htail : ScansItems _ _ items (.ok (cs, type), t) :=
    hrest ▸ scansItems_scanItems (fun _ _ _ => scans_scanNode) hjoin.wellFormed hjoin.knows
  exact ⟨c, s₁, cs, rfl, hitem, hscans, hjoin, hrest, htail.extended⟩

theorem scanMembers_cons_cases (hnames : decodeNames (member :: members) = .ok names)
    (hs : s.WellFormed)
    (h : scanner.scanMembers source depth s seen names (member :: members) = (.ok fields, t)) :
    ∃ name rest c s₁ cs, names = name :: rest ∧ fields = ((s.intern name).1, c) :: cs ∧
      decodeNames members = .ok rest ∧ (s.intern name).1 ∉ seen ∧
        s.Interns name (s.intern name) ∧
          scanner.scanNode source depth (s.intern name).2 member.2 = (.ok c, s₁) ∧
            Scans (s.intern name).2 member.2 (.ok c, s₁) ∧
              scanner.scanMembers source depth s₁ ((s.intern name).1 :: seen) rest members =
                (.ok cs, t) ∧ s₁.Extends t := by
  obtain ⟨name, rest, -, hrestNames, rfl⟩ := decodeNames_cons hnames
  obtain ⟨hseen, c, s₁, cs, hvalue, hrest, rfl⟩ := scanMembers_cons_eq_ok_iff.mp h
  have hintern := Schema.interns_intern hs name
  have hscans : Scans _ member.2 (.ok c, s₁) := hvalue ▸ scans_scanNode hintern.wellFormed
  have htail : ScansMembers s₁ _ members (.ok cs, t) :=
    hrest ▸ scansMembers_scanMembers (fun _ _ _ => scans_scanNode) hrestNames hscans.wellFormed
  exact ⟨name, rest, c, s₁, cs, rfl, rfl, hrestNames, hseen, hintern, hvalue, hscans, hrest,
    htail.extended⟩

/-- A successful scan of an array has registered the type of the array. -/
theorem scanNode_array_cases (hs : s.WellFormed)
    (h : scanner.scanNode source depth s (.array span items) = (.ok cell, t)) :
    ∃ cs joined s₁, depth < scanner.maxDepth ∧ cell = .array span (s₁.array joined).1 cs ∧
      scanner.scanItems source (depth + 1) s .null items = (.ok (cs, joined), s₁) ∧
        s₁.Registers (.array joined) (s₁.array joined) ∧ t = (s₁.array joined).2 := by
  obtain ⟨hdepth, cs, joined, s₁, hitems, rfl, rfl⟩ := scanNode_array_eq_ok_iff.mp h
  have hscans : ScansItems s .null items (.ok (cs, joined), s₁) :=
    hitems ▸ scansItems_scanItems (fun _ _ _ => scans_scanNode) hs Schema.knows_null
  exact ⟨cs, joined, s₁, hdepth, rfl, hitems, hscans.registers, rfl⟩

/-- A successful scan of an object has registered the type of the object. -/
theorem scanNode_object_cases (hs : s.WellFormed)
    (h : scanner.scanNode source depth s (.object span members) = (.ok cell, t)) :
    ∃ names cs s₁, depth < scanner.maxDepth ∧ decodeNames members = .ok names ∧
      cell = .record span (s₁.record (Cell.memberFields cs)).1 cs ∧
        scanner.scanMembers source (depth + 1) s [] names members = (.ok cs, s₁) ∧
          s₁.Registers (.record (Cell.memberFields cs)) (s₁.record (Cell.memberFields cs)) ∧
            t = (s₁.record (Cell.memberFields cs)).2 := by
  obtain ⟨hdepth, names, cs, s₁, hnames, hmembers, rfl, rfl⟩ := scanNode_object_eq_ok_iff.mp h
  have hscans : ScansMembers s [] members (.ok cs, s₁) :=
    hmembers ▸ scansMembers_scanMembers (fun _ _ _ => scans_scanNode) hnames hs
  exact ⟨names, cs, s₁, hdepth, hnames, rfl, hmembers, hscans.registers, rfl⟩

end JsonLines.Scanner
