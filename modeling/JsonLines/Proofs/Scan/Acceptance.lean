/-
JsonLines.Proofs.Scan.Acceptance — which spans scan, and how the others fail.

The language is said without the scanner: characters that write a value between blanks, names that
spell texts, no two of one object the same, and no more containers around each other than allowed.
`Node.violations` lists everything that is wrong with a value in the order of its text, as if
nothing ended the search. A scan is refused with the first entry of that list and accepted when
there is none (`refusal?_scanNode`), whatever the schema holds: a name is repeated exactly when its
number is, since numbers once given stay with their names.
-/
import JsonLines.Proofs.Json.Reading
import JsonLines.Proofs.Scan.Scanned

namespace JsonLines

open Json Utf8

/-! ## What is asked of names and of nesting -/

/-- The name of a member spells a text. -/
def Json.Key.Spells (key : Key) (name : String) : Prop := Literal.Spells key.raw name.toList

/-- The names of members spell texts, no two of them the same. -/
def Json.WellNamedMembers (members : List (Key × Node)) : Prop :=
  (∀ m ∈ members, ∃ name, m.1.Spells name) ∧
    members.Pairwise fun m m' => ∀ name, m.1.Spells name → ¬ m'.1.Spells name

/-- In every object of the value the names of the members spell texts, no two of them the same. -/
def Json.Node.WellNamed (node : Node) : Prop :=
  ∀ span members, (Node.object span members).Part node → WellNamedMembers members

mutual

/-- How many containers stand around each other in a value. -/
def Json.Node.nesting : Node → Nat
  | .array _ items => nestingOfItems items + 1
  | .object _ members => nestingOfMembers members + 1
  | _ => 0

/-- The nesting of the deepest item. -/
def Json.nestingOfItems : List Node → Nat
  | [] => 0
  | item :: items => max item.nesting (nestingOfItems items)

/-- The nesting of the deepest member. -/
def Json.nestingOfMembers : List (Key × Node) → Nat
  | [] => 0
  | (_, node) :: members => max node.nesting (nestingOfMembers members)

end

/-! ## What is wrong with a value -/

/-- Why a name does not decode. -/
def Json.Key.fault? (key : Key) : Option Fault :=
  match key.decode with
  | .error fault => some fault
  | .ok _ => none

/-- A container inside `depth` others is too deep. -/
def tooDeep (limit depth : Nat) : List ScanError :=
  if limit ≤ depth then [.tooDeep limit] else []

/-- The names of an object that do not decode. -/
def badNames (source : ByteSource) (span : Span) (members : List (Key × Node)) : List ScanError :=
  members.filterMap fun m => m.1.fault?.map fun fault =>
    .malformed (fault.locate (source.slice span).data.toList span.offset)

/-- A name that is one of those before it. -/
def repeated (before : List String) (key : Key) : List ScanError :=
  (key.name?.toList.filter (· ∈ before)).map .duplicateField

mutual

/-- All that is wrong with a value inside `depth` containers, in the order of the text: of a
container first its depth, of an object then the names that do not decode, and of each member
whether its name is repeated before what is wrong with its value. -/
def Json.Node.violations (source : ByteSource) (limit depth : Nat) : Node → List ScanError
  | .array _ items => tooDeep limit depth ++ violationsOfItems source limit (depth + 1) items
  | .object span members => tooDeep limit depth ++ (badNames source span members ++
    violationsOfMembers source limit (depth + 1) [] members)
  | _ => []

/-- What is wrong with items, one after the other. -/
def Json.violationsOfItems (source : ByteSource) (limit depth : Nat) :
    List Node → List ScanError
  | [] => []
  | item :: items =>
    item.violations source limit depth ++ violationsOfItems source limit depth items

/-- What is wrong with members, one after the other; `before` are the names that came before. -/
def Json.violationsOfMembers (source : ByteSource) (limit depth : Nat) (before : List String) :
    List (Key × Node) → List ScanError
  | [] => []
  | (key, node) :: members => repeated before key ++ (node.violations source limit depth ++
    violationsOfMembers source limit depth (key.name?.toList ++ before) members)

end

variable {source : ByteSource} {scanner : Scanner} {limit depth p : Nat} {s t : Schema}
  {span : Span} {node m : Node} {items : List Node} {members : List (Key × Node)} {key : Key}
  {name : String} {names before : List String} {seen : List NameId} {cs : List Char}

/-! ## The scanner finds the first violation -/

/-- The error of an outcome. -/
def refusal? {α : Type} : Except ScanError α → Option ScanError
  | .error e => some e
  | .ok _ => none

theorem head?_tooDeep_of_le {rest : List ScanError} (h : limit ≤ depth) :
    (tooDeep limit depth ++ rest).head? = some (.tooDeep limit) := by
  rw [tooDeep, if_pos h]
  rfl

theorem tooDeep_of_lt (h : ¬ limit ≤ depth) : tooDeep limit depth = [] := if_neg h

/-- The first name that does not decode is what keeps the names of an object from decoding. -/
theorem head?_badNames (source : ByteSource) (span : Span) (members : List (Key × Node)) :
    (badNames source span members).head? = match decodeNames members with
      | .error fault =>
        some (.malformed (fault.locate (source.slice span).data.toList span.offset))
      | .ok _ => none := by
  induction members with
  | nil => rfl
  | cons member members ih =>
    obtain ⟨key, node⟩ := member
    rw [decodeNames, badNames, List.filterMap_cons]
    cases hkey : key.decode with
    | error fault =>
      have hfault : key.fault? = some fault := by rw [Key.fault?, hkey]
      simp [hfault]
    | ok chars =>
      have hfault : key.fault? = none := by rw [Key.fault?, hkey]
      rw [badNames] at ih
      simp only [hfault, Option.map_none, ih]
      cases decodeNames members <;> rfl

/-- The numbers are those of the names. -/
def Numbered (s : Schema) (seen : List NameId) (before : List String) : Prop :=
  List.Forall₂ (fun id name => s.nameId? name = some id) seen before

theorem Numbered.remembers (h : Numbered s seen before) (hst : s.Remembers t) :
    Numbered t seen before := h.imp fun _ _ hid => hst.nameId?_eq hid

/-- A name is among others when its number is among theirs. -/
theorem Numbered.mem_iff {id : NameId} (h : Numbered s seen before)
    (hid : s.nameId? name = some id) : id ∈ seen ↔ name ∈ before := by
  induction h with
  | nil => simp
  | @cons other first _ _ hhead _ ih =>
    rw [List.mem_cons, List.mem_cons, ih]
    refine or_congr_left ?_
    constructor
    · rintro rfl
      exact Option.some.inj ((Schema.nameId?_eq_some_iff.mp hid).symm.trans
        (Schema.nameId?_eq_some_iff.mp hhead))
    · rintro rfl
      exact Option.some.inj (hid.symm.trans hhead)

/-- What scanning leaves of a schema, if nothing is wrong with it: the first violation is what the
scan is refused with, and no name moves. -/
structure Refuses {α : Type} (s : Schema) (violations : List ScanError)
    (r : Except ScanError α × Schema) : Prop where
  refusal_eq : refusal? r.1 = violations.head?
  remembers : s.Remembers r.2

variable {α : Type} {violations rest : List ScanError} {e : ScanError} {a : α}

theorem Refuses.head?_append_of_error (h : Refuses (α := α) s violations (.error e, t)) :
    (violations ++ rest).head? = some e := by
  rw [List.head?_append, ← h.refusal_eq]
  rfl

theorem Refuses.head?_append_of_ok (h : Refuses s violations (.ok a, t)) :
    (violations ++ rest).head? = rest.head? := by
  rw [List.head?_append, ← h.refusal_eq]
  rfl

theorem refuses_scanItems {element : TypeId}
    (ih : ∀ item ∈ items, ∀ {s : Schema}, Refuses s (item.violations source scanner.maxDepth depth)
      (scanner.scanNode source depth s item)) :
    Refuses s (violationsOfItems source scanner.maxDepth depth items)
      (scanner.scanItems source depth s element items) := by
  induction items generalizing s element with
  | nil => exact ⟨rfl, .refl s⟩
  | cons item items ih' =>
    have hhead := @ih item List.mem_cons_self s
    rw [Scanner.scanItems, violationsOfItems]
    generalize scanner.scanNode source depth s item = r at hhead
    obtain ⟨outcome, s₁⟩ := r
    cases outcome with
    | error e => exact ⟨hhead.head?_append_of_error.symm, hhead.remembers⟩
    | ok cell =>
      have hunion : s₁.Remembers (s₁.union element cell.type).2 := Schema.remembers_union ..
      have htail := @ih' (s₁.union element cell.type).2 (s₁.union element cell.type).1
        fun i hi => ih i (List.mem_cons_of_mem _ hi)
      dsimp only
      generalize scanner.scanItems source depth (s₁.union element cell.type).2
        (s₁.union element cell.type).1 items = r at htail
      obtain ⟨outcome, s₃⟩ := r
      have hst := hhead.remembers.trans (hunion.trans htail.remembers)
      cases outcome with
      | error e => exact ⟨htail.refusal_eq.trans hhead.head?_append_of_ok.symm, hst⟩
      | ok result => exact ⟨htail.refusal_eq.trans hhead.head?_append_of_ok.symm, hst⟩

theorem refuses_scanMembers
    (ih : ∀ m ∈ members, ∀ {s : Schema}, Refuses s
      (m.2.violations source scanner.maxDepth depth) (scanner.scanNode source depth s m.2))
    (hnames : decodeNames members = .ok names) (hseen : Numbered s seen before) :
    Refuses s (violationsOfMembers source scanner.maxDepth depth before members)
      (scanner.scanMembers source depth s seen names members) := by
  induction members generalizing s seen names before with
  | nil => exact ⟨rfl, .refl s⟩
  | cons member members ih' =>
    obtain ⟨key, node⟩ := member
    obtain ⟨name, rest, hname, hrest, rfl⟩ := decodeNames_cons hnames
    have hintern := s.remembers_intern name
    have hid := s.nameId?_intern name
    have hseen₁ := hseen.remembers hintern
    have hrepeated : repeated before key = if name ∈ before then [.duplicateField name] else [] := by
      rw [repeated, hname]
      split <;> simp [*]
    rw [Scanner.scanMembers, violationsOfMembers, hrepeated, hname]
    generalize s.intern name = r at hintern hid hseen₁
    obtain ⟨id, s₁⟩ := r
    simp only [hseen₁.mem_iff hid]
    split
    · exact ⟨rfl, hintern⟩
    have hhead := @ih _ List.mem_cons_self s₁
    dsimp only at hhead
    rw [List.nil_append]
    generalize scanner.scanNode source depth s₁ node = r at hhead
    obtain ⟨outcome, s₂⟩ := r
    cases outcome with
    | error e => exact ⟨hhead.head?_append_of_error.symm, hintern.trans hhead.remembers⟩
    | ok cell =>
      have hseen₂ : Numbered s₂ (id :: seen) (name :: before) :=
        .cons (hhead.remembers.nameId?_eq hid) (hseen₁.remembers hhead.remembers)
      have htail := ih' (fun i hi => ih i (List.mem_cons_of_mem _ hi)) hrest hseen₂
      dsimp only
      generalize scanner.scanMembers source depth s₂ (id :: seen) rest members = r at htail
      obtain ⟨outcome, s₃⟩ := r
      have hst := hintern.trans (hhead.remembers.trans htail.remembers)
      cases outcome with
      | error e => exact ⟨htail.refusal_eq.trans hhead.head?_append_of_ok.symm, hst⟩
      | ok cells => exact ⟨htail.refusal_eq.trans hhead.head?_append_of_ok.symm, hst⟩

/-- **A scan is refused with the first violation**, and accepted when there is none, whatever the
schema holds. -/
theorem refuses_scanNode (source : ByteSource) (scanner : Scanner) (depth : Nat) (s : Schema)
    (node : Node) : Refuses s (node.violations source scanner.maxDepth depth)
      (scanner.scanNode source depth s node) := by
  induction node generalizing s depth with
  | array span items ih =>
    rw [Scanner.scanNode, Node.violations]
    split
    · rename_i h
      exact ⟨(head?_tooDeep_of_le h).symm, .refl s⟩
    rename_i h
    have hitems : Refuses s (violationsOfItems source scanner.maxDepth (depth + 1) items)
        (scanner.scanItems source (depth + 1) s .null items) :=
      refuses_scanItems fun i hi s => ih i hi (depth + 1) s
    rw [tooDeep_of_lt h, List.nil_append]
    generalize scanner.scanItems source (depth + 1) s .null items = r at hitems
    obtain ⟨outcome, s₁⟩ := r
    cases outcome with
    | error e => exact ⟨hitems.refusal_eq, hitems.remembers⟩
    | ok result =>
      exact ⟨hitems.refusal_eq, hitems.remembers.trans (Schema.remembers_register ..)⟩
  | object span members ih =>
    rw [Scanner.scanNode, Node.violations]
    split
    · rename_i h
      exact ⟨(head?_tooDeep_of_le h).symm, .refl s⟩
    rename_i h
    have hbad := head?_badNames source span members
    rw [tooDeep_of_lt h, List.nil_append]
    cases hnames : decodeNames members with
    | error fault =>
      rw [hnames] at hbad
      refine ⟨?_, .refl s⟩
      rw [List.head?_append, hbad]
      rfl
    | ok names =>
      have hmembers : Refuses s
          (violationsOfMembers source scanner.maxDepth (depth + 1) [] members)
          (scanner.scanMembers source (depth + 1) s [] names members) :=
        refuses_scanMembers (fun m hm s => ih m hm (depth + 1) s) hnames .nil
      rw [hnames] at hbad
      dsimp only
      generalize scanner.scanMembers source (depth + 1) s [] names members = r at hmembers
      obtain ⟨outcome, s₁⟩ := r
      have hhead : (badNames source span members ++ violationsOfMembers source scanner.maxDepth
          (depth + 1) [] members).head? = refusal? outcome := by
        rw [List.head?_append, hbad, hmembers.refusal_eq]
        rfl
      cases outcome with
      | error e => exact ⟨hhead.symm, hmembers.remembers⟩
      | ok cells =>
        exact ⟨hhead.symm, hmembers.remembers.trans (Schema.remembers_register ..)⟩
  | _ =>
    rw [Scanner.scanNode]
    exact ⟨rfl, .refl s⟩

/-! ## When nothing is wrong -/

/-- The names of all objects of the value are written as literals are. -/
def Json.Node.WrittenNames (node : Node) : Prop :=
  ∀ span members, (Node.object span members).Part node → ∀ m ∈ members, Literal.Written m.1.raw

theorem Json.Writes.writtenNames (h : Writes p cs node) : node.WrittenNames := by
  intro span members hpart m hm
  obtain ⟨before, own, after, -, hown⟩ := h.holds hpart
  obtain ⟨-, inner, -, hmembers⟩ := hown
  exact hmembers.written_of_mem hm

theorem Json.Key.decode_eq_ok_iff (h : Literal.Written key.raw) :
    key.decode = .ok cs ↔ Literal.Spells key.raw cs := by
  unfold Key.decode
  constructor
  · intro hdecode
    split at hdecode
    · cases hdecode
    · rename_i text d hread
      cases hdecode
      obtain ⟨raw, hraw, heq⟩ := Literal.spells_of_read hread
      rwa [h.append_inj hraw.written heq]
  · intro hspells
    obtain ⟨d, hread⟩ := Literal.read_of_spells hspells key.position []
    rw [hread]

theorem Json.Key.name?_eq_some_iff (h : Literal.Written key.raw) :
    key.name? = some name ↔ key.Spells name := by
  rw [Key.Spells, ← decode_eq_ok_iff h, Key.name?]
  cases key.decode with
  | error e => simp
  | ok chars =>
    simp only [Option.some.injEq, Except.ok.injEq]
    constructor
    · rintro rfl
      simp
    · rintro rfl
      simp

theorem Json.Key.fault?_eq_none_iff (h : Literal.Written key.raw) :
    key.fault? = none ↔ ∃ name, key.Spells name := by
  simp only [← name?_eq_some_iff h, Key.name?, Key.fault?]
  cases key.decode <;> simp

theorem wellNamed_array_iff :
    (Node.array span items).WellNamed ↔ ∀ item ∈ items, item.WellNamed := by
  constructor
  · intro h item hitem span members hpart
    exact h span members (.item hitem hpart)
  · intro h span members hpart
    cases hpart with
    | item hitem hpart => exact h _ hitem span members hpart

theorem wellNamed_object_iff : (Node.object span members).WellNamed ↔
    WellNamedMembers members ∧ ∀ m ∈ members, m.2.WellNamed := by
  constructor
  · intro h
    exact ⟨h span members .self, fun m hm span members hpart => h span members (.member hm hpart)⟩
  · rintro ⟨hself, hmembers⟩ span members hpart
    cases hpart with
    | self => exact hself
    | member hm hpart => exact hmembers _ hm span members hpart

theorem nestingOfItems_le_iff {n : Nat} :
    nestingOfItems items ≤ n ↔ ∀ item ∈ items, item.nesting ≤ n := by
  induction items with
  | nil => simp [nestingOfItems]
  | cons item items ih => rw [nestingOfItems, Nat.max_le, ih, List.forall_mem_cons]

theorem nestingOfMembers_le_iff {n : Nat} :
    nestingOfMembers members ≤ n ↔ ∀ m ∈ members, m.2.nesting ≤ n := by
  induction members with
  | nil => simp [nestingOfMembers]
  | cons m members ih => rw [nestingOfMembers, Nat.max_le, ih, List.forall_mem_cons]

theorem badNames_eq_nil_iff (h : ∀ m ∈ members, Literal.Written m.1.raw) :
    badNames source span members = [] ↔ ∀ m ∈ members, ∃ name, m.1.Spells name := by
  rw [badNames, List.filterMap_eq_nil_iff]
  refine forall₂_congr fun m hm => ?_
  rw [Option.map_eq_none_iff, Key.fault?_eq_none_iff (h m hm)]

theorem repeated_eq_nil_iff :
    repeated before key = [] ↔ ∀ name, key.name? = some name → name ∉ before := by
  rw [repeated]
  cases key.name? with
  | none => simp
  | some name => by_cases h : name ∈ before <;> simp [h]

theorem violationsOfItems_eq_nil_iff : violationsOfItems source limit depth items = [] ↔
    ∀ item ∈ items, item.violations source limit depth = [] := by
  induction items with
  | nil => simp [violationsOfItems]
  | cons item items ih => rw [violationsOfItems, List.append_eq_nil_iff, ih, List.forall_mem_cons]

/-- Members are free of violations when no name is repeated and every value is free of them. -/
theorem violationsOfMembers_eq_nil_iff :
    violationsOfMembers source limit depth before members = [] ↔
      (∀ m ∈ members, ∀ name, m.1.name? = some name → name ∉ before) ∧
        members.Pairwise (fun m m' => ∀ name, m.1.name? = some name → m'.1.name? ≠ some name) ∧
          ∀ m ∈ members, m.2.violations source limit depth = [] := by
  induction members generalizing before with
  | nil => simp [violationsOfMembers]
  | cons m members ih =>
    obtain ⟨key, node⟩ := m
    rw [violationsOfMembers, List.append_eq_nil_iff, List.append_eq_nil_iff, repeated_eq_nil_iff, ih,
      List.pairwise_cons, List.forall_mem_cons, List.forall_mem_cons]
    have hsplit : (∀ m ∈ members, ∀ name, m.1.name? = some name →
        name ∉ key.name?.toList ++ before) ↔
        (∀ m ∈ members, ∀ name, key.name? = some name → m.1.name? ≠ some name) ∧
          ∀ m ∈ members, ∀ name, m.1.name? = some name → name ∉ before := by
      cases key.name? <;> grind
    rw [hsplit]
    tauto

theorem tooDeep_eq_nil_iff : tooDeep limit depth = [] ↔ depth < limit := by
  rw [tooDeep]
  split <;> simp <;> omega

theorem Json.Node.WrittenNames.item {item : Node} (h : (Node.array span items).WrittenNames)
    (hitem : item ∈ items) : item.WrittenNames :=
  fun span members hpart => h span members (.item hitem hpart)

theorem Json.Node.WrittenNames.member {m : Key × Node}
    (h : (Node.object span members).WrittenNames) (hm : m ∈ members) : m.2.WrittenNames :=
  fun span members hpart => h span members (.member hm hpart)

/-- **Nothing is wrong with a value** when its names spell texts that differ in each object and it
does not nest too deep. -/
theorem Json.Node.violations_eq_nil_iff (hw : node.WrittenNames) (hd : depth ≤ limit) :
    node.violations source limit depth = [] ↔
      node.WellNamed ∧ depth + node.nesting ≤ limit := by
  induction node generalizing depth with
  | array span items ih =>
    rw [violations, List.append_eq_nil_iff, tooDeep_eq_nil_iff, violationsOfItems_eq_nil_iff,
      wellNamed_array_iff, nesting]
    by_cases hlt : depth < limit
    · have hitems : (∀ item ∈ items, item.violations source limit (depth + 1) = []) ↔
          ∀ item ∈ items, item.WellNamed ∧ item.nesting ≤ limit - (depth + 1) :=
        forall₂_congr fun item hitem => by
          rw [ih item hitem (hw.item hitem) hlt]
          exact and_congr_right' (by omega)
      rw [hitems, forall₂_and, ← nestingOfItems_le_iff, and_iff_right hlt]
      exact and_congr_right' (by omega)
    · refine iff_of_false (fun h => hlt h.1) fun h => hlt (by omega)
  | object span members ih =>
    have hraw := hw span members .self
    rw [violations, List.append_eq_nil_iff, List.append_eq_nil_iff, tooDeep_eq_nil_iff,
      badNames_eq_nil_iff hraw, violationsOfMembers_eq_nil_iff, wellNamed_object_iff, nesting]
    by_cases hlt : depth < limit
    · have hmembers : (∀ m ∈ members, m.2.violations source limit (depth + 1) = []) ↔
          ∀ m ∈ members, m.2.WellNamed ∧ m.2.nesting ≤ limit - (depth + 1) :=
        forall₂_congr fun m hm => by
          rw [ih m hm (hw.member hm) hlt]
          exact and_congr_right' (by omega)
      have hdistinct : members.Pairwise
          (fun m m' => ∀ name, m.1.name? = some name → m'.1.name? ≠ some name) ↔
          members.Pairwise fun m m' => ∀ name, m.1.Spells name → ¬ m'.1.Spells name := by
        refine List.Pairwise.iff_of_mem ?_
        intro m m' hm hm'
        simp only [ne_eq, Key.name?_eq_some_iff (hraw m hm), Key.name?_eq_some_iff (hraw m' hm')]
      rw [hmembers, hdistinct, forall₂_and, ← nestingOfMembers_le_iff, and_iff_right hlt]
      have hle : nestingOfMembers members ≤ limit - (depth + 1) ↔
          depth + (nestingOfMembers members + 1) ≤ limit := by omega
      rw [hle]
      simp only [List.not_mem_nil, not_false_eq_true, implies_true, true_and, WellNamedMembers]
      tauto
    · refine iff_of_false (fun h => hlt h.1) fun h => hlt (by omega)
  | _ =>
    refine iff_of_true rfl ⟨?_, hd⟩
    intro span members hpart
    cases hpart

/-- The parts of a value are named as well as the value is. -/
theorem Json.Node.WellNamed.part (h : node.WellNamed) (hm : m.Part node) : m.WellNamed :=
  fun span members hpart => h span members (hpart.trans hm)

/-- A part nests no deeper than the value. -/
theorem Json.Node.Part.nesting_le (h : m.Part node) : m.nesting ≤ node.nesting := by
  induction h with
  | self => exact Nat.le_refl _
  | item hitem _ ih =>
    have := nestingOfItems_le_iff.mp (Nat.le_refl _) _ hitem
    rw [nesting]
    omega
  | member hm _ ih =>
    have := nestingOfMembers_le_iff.mp (Nat.le_refl _) _ hm
    rw [nesting]
    dsimp only at this
    omega

/-! ## Texts that scan -/

/-- The characters, the first of which is at position `p`, write one value between blanks. -/
def Json.Document (p : Nat) (cs : List Char) (node : Node) : Prop := ∃ before own after,
  cs = before ++ (own ++ after) ∧ Blanks before ∧ Writes (p + width before) own node ∧ Blanks after

theorem Json.Document.writtenNames (h : Document p cs node) : node.WrittenNames := by
  obtain ⟨before, own, after, -, -, hwrites, -⟩ := h
  exact hwrites.writtenNames

/-- What a text reads as, by what its bytes are. -/
theorem readTree_of_slice (hfits : span.fits source.size) (h : source.slice span = cs.utf8Encode) :
    Scanner.readTree source span = match Node.parse span.offset cs with
      | .error fault =>
        .error (.malformed (fault.locate (source.slice span).data.toList span.offset))
      | .ok node => .ok node := by
  have hdecode := decode_eq_ok_iff.mpr h
  cases hparse : Node.parse span.offset cs <;>
    simp only [Scanner.readTree, if_pos hfits, hdecode, hparse]

/-- **A span reads as the value that its text writes.** -/
theorem readTree_eq_ok_iff : Scanner.readTree source span = .ok node ↔
    span.fits source.size ∧
      ∃ text, source.slice span = text.utf8Encode ∧ Document span.offset text node := by
  constructor
  · intro h
    by_cases hfits : span.fits source.size
    · refine ⟨hfits, ?_⟩
      cases hdecode : decode (source.slice span) with
      | error n => simp [Scanner.readTree, hfits, hdecode] at h
      | ok text =>
        have hslice := decode_eq_ok_iff.mp hdecode
        rw [readTree_of_slice hfits hslice] at h
        cases hparse : Node.parse span.offset text with
        | error fault => simp [hparse] at h
        | ok node' =>
          simp only [hparse, Except.ok.injEq] at h
          exact ⟨text, hslice, h ▸ Node.parse_eq_ok_iff.mp hparse⟩
    · rw [Scanner.readTree, if_neg hfits] at h
      cases h
  · rintro ⟨hfits, text, hslice, hdoc⟩
    have hparse : Node.parse span.offset text = .ok node := Node.parse_eq_ok_iff.mpr hdoc
    rw [readTree_of_slice hfits hslice, hparse]

/-- **What scans**: a value that reads, whose names spell texts that differ in each object and which
does not nest too deep. -/
theorem exists_scan_eq_ok_iff : (∃ cell, (scanner.scan source s span).1 = .ok cell) ↔
    ∃ node, Scanner.readTree source span = .ok node ∧ node.WellNamed ∧
      node.nesting ≤ scanner.maxDepth := by
  rw [Scanner.scan]
  cases hread : Scanner.readTree source span with
  | error e => simp
  | ok node =>
    obtain ⟨-, text, -, hdoc⟩ := readTree_eq_ok_iff.mp hread
    have hclean : node.violations source scanner.maxDepth 0 = [] ↔
        node.WellNamed ∧ 0 + node.nesting ≤ scanner.maxDepth :=
      Node.violations_eq_nil_iff hdoc.writtenNames (Nat.zero_le _)
    have hrefusal := (refuses_scanNode source scanner 0 s node).refusal_eq
    rw [Nat.zero_add] at hclean
    simp only [Except.ok.injEq, exists_eq_left', ← hclean, ← List.head?_eq_none_iff, ← hrefusal]
    cases (scanner.scanNode source 0 s node).1 <;> simp [refusal?]

theorem scan_of_document (hfits : span.fits source.size)
    (h : source.slice span = cs.utf8Encode) (hdoc : Document span.offset cs node) :
    scanner.scan source s span = scanner.scanNode source 0 s node := by
  rw [Scanner.scan, readTree_eq_ok_iff.mpr ⟨hfits, cs, h, hdoc⟩]

theorem scan_of_not_document (hfits : span.fits source.size)
    (h : source.slice span = cs.utf8Encode) (hdoc : ¬ ∃ node, Document span.offset cs node) :
    ∃ fault, scanner.scan source s span = (.error (.malformed fault), s) := by
  rw [Scanner.scan, readTree_of_slice hfits h]
  cases hparse : Node.parse span.offset cs with
  | error fault => exact ⟨_, rfl⟩
  | ok node => exact absurd ⟨node, Node.parse_eq_ok_iff.mp hparse⟩ hdoc

theorem scan_of_not_isValidUTF8 (hfits : span.fits source.size)
    (h : ¬ (source.slice span).IsValidUTF8) :
    ∃ n, scanner.scan source s span = (.error (.invalidUtf8 n), s) ∧
      IsGreatest (validEnds (source.slice span) 0) n := by
  rw [Scanner.scan, Scanner.readTree, if_pos hfits]
  cases hdecode : decode (source.slice span) with
  | error n => exact ⟨n, by simp only [hdecode], (decode_eq_error_iff.mp hdecode).2⟩
  | ok cs => exact absurd (isValidUTF8_iff.mpr ⟨cs, hdecode⟩) h

/-- What the text of a span decides about its scan. -/
structure Scanner.Verdict (scanner : Scanner) (source : ByteSource) (span : Span)
    (outcome : Except ScanError Cell) : Prop where
  /-- Accepted is one value between blanks whose names spell texts, in each object different ones,
  and whose containers nest no deeper than allowed. -/
  accepted_iff : (∃ cell, outcome = .ok cell) ↔ ∃ text node,
    source.slice span = text.utf8Encode ∧ Document span.offset text node ∧ node.WellNamed ∧
      node.nesting ≤ scanner.maxDepth
  /-- Bytes that are no text are refused with the length of their longest valid prefix. -/
  invalid : ¬ (source.slice span).IsValidUTF8 → ∃ n, outcome = .error (.invalidUtf8 n) ∧
    IsGreatest (validEnds (source.slice span) 0) n
  /-- A text that is not one value between blanks is malformed. -/
  malformed : ∀ text, source.slice span = text.utf8Encode →
    (¬ ∃ node, Document span.offset text node) → ∃ fault, outcome = .error (.malformed fault)
  /-- Any other text is refused with the first thing that is wrong with its value. -/
  first : ∀ text node, source.slice span = text.utf8Encode → Document span.offset text node →
    ∀ e, outcome = .error e ↔ (node.violations source scanner.maxDepth 0).head? = some e

/-- **The scanner accepts exactly its language**, and refuses everything else for the first reason
there is. -/
theorem Scanner.scan_verdict (scanner : Scanner) (source : ByteSource) (s : Schema) (span : Span)
    (hfits : span.fits source.size) :
    scanner.Verdict source span (scanner.scan source s span).1 where
  accepted_iff := by
    rw [exists_scan_eq_ok_iff]
    constructor
    · rintro ⟨node, hread, hnamed, hdepth⟩
      obtain ⟨-, text, htext, hdoc⟩ := readTree_eq_ok_iff.mp hread
      exact ⟨text, node, htext, hdoc, hnamed, hdepth⟩
    · rintro ⟨text, node, htext, hdoc, hnamed, hdepth⟩
      exact ⟨node, readTree_eq_ok_iff.mpr ⟨hfits, text, htext, hdoc⟩, hnamed, hdepth⟩
  invalid hinvalid := by
    have hscan : ∃ n, scanner.scan source s span = (.error (.invalidUtf8 n), s) ∧
        IsGreatest (validEnds (source.slice span) 0) n := scan_of_not_isValidUTF8 hfits hinvalid
    obtain ⟨n, hn, hgreatest⟩ := hscan
    exact ⟨n, by rw [hn], hgreatest⟩
  malformed text htext hdoc := by
    have hscan : ∃ fault, scanner.scan source s span = (.error (.malformed fault), s) :=
      scan_of_not_document hfits htext hdoc
    obtain ⟨fault, hfault⟩ := hscan
    exact ⟨fault, by rw [hfault]⟩
  first text node htext hdoc e := by
    rw [scan_of_document hfits htext hdoc, ← (refuses_scanNode source scanner 0 s node).refusal_eq]
    cases (scanner.scanNode source 0 s node).1 <;> simp [refusal?]

/-- One name in two spellings, behind an array that nests as deep as allowed. -/
def twoSpellings : ByteSource := .ofString " \x7b\"ab\":[],\"a\\u0062\":1\x7d"

theorem Scanner.scan_verdict_twoSpellings : Span.fits ⟨0, 22⟩ twoSpellings.size ∧
    Scanner.Verdict ⟨2⟩ twoSpellings ⟨0, 22⟩ (.error (.duplicateField "ab")) := by
  have hfits : Span.fits ⟨0, 22⟩ twoSpellings.size := by decide +kernel
  have hscan : (Scanner.scan ⟨2⟩ twoSpellings .empty ⟨0, 22⟩).1 =
      .error (.duplicateField "ab") := by
    have hrefusal : refusal? (Scanner.scan ⟨2⟩ twoSpellings .empty ⟨0, 22⟩).1 =
        some (.duplicateField "ab") := by decide +kernel
    cases h : (Scanner.scan ⟨2⟩ twoSpellings .empty ⟨0, 22⟩).1 with
    | error e => simpa [h, refusal?] using hrefusal
    | ok cell => simp [h, refusal?] at hrefusal
  exact ⟨hfits, hscan ▸ Scanner.scan_verdict ⟨2⟩ twoSpellings .empty ⟨0, 22⟩ hfits⟩

end JsonLines
