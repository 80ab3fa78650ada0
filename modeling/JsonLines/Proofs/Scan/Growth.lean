/-
JsonLines.Proofs.Scan.Growth — what a scan does to the schema.

A scan interns the names in the value, at any depth, joins the types of items, and registers types
over names that are known by then. Nothing else happens to the schema, whether or not the scan
succeeds (`grows_scanNode`). So a property of schemas that these three keep is kept by every scan,
and there is no need to go through the value again for each such property.
-/
import JsonLines.Proofs.Scan.Scanned

namespace JsonLines

open Json

variable {s t : Schema} {source : ByteSource} {scanner : Scanner} {node m : Node}
  {items : List Node} {members : List (Key × Node)} {name : String} {P : String → Prop}

/-! ## The names in a value -/

/-- Some object in the value has a member of the name. -/
def Json.Node.HasName (node : Node) (name : String) : Prop :=
  ∃ span members, (Node.object span members).Part node ∧ ∃ m ∈ members, m.1.name? = some name

theorem hasName_of_part (hm : m.Part node) (h : m.HasName name) : node.HasName name := by
  obtain ⟨span, members, hpart, hname⟩ := h
  exact ⟨span, members, hpart.trans hm, hname⟩

theorem hasName_of_item {span : Span} {item : Node} (hitem : item ∈ items)
    (h : item.HasName name) : (Node.array span items).HasName name :=
  hasName_of_part (.item hitem .self) h

theorem hasName_of_member {span : Span} {member : Key × Node} (hmember : member ∈ members)
    (h : member.1.name? = some name ∨ member.2.HasName name) :
    (Node.object span members).HasName name := by
  rcases h with h | h
  · exact ⟨span, members, .self, member, hmember, h⟩
  · exact hasName_of_part (.member hmember .self) h

/-- The names of the members of an image are known. -/
theorem ScannedMembers.exists_name {cells : List (NameId × Cell)}
    (h : ScannedMembers s members cells) {entry : NameId × Cell} (hentry : entry ∈ cells) :
    ∃ name, s.name? entry.1 = some name := by
  obtain ⟨member, -, -, name, -, hid⟩ := exists_of_forall₂ h.forall₂ hentry
  exact ⟨name, hid⟩

/-! ## The growth of a schema -/

/-- The second schema comes from the first one by interning some names, by joining types, and by
registering types over names that are known. -/
inductive Schema.Grows (P : String → Prop) (s : Schema) : Schema → Prop where
  | refl : Grows P s s
  | intern {t : Schema} {name : String} : Grows P s t → P name → Grows P s (t.intern name).2
  | union {t : Schema} (a b : TypeId) : Grows P s t → Grows P s (t.union a b).2
  | register {t : Schema} {type : Composite} : Grows P s t →
    (∀ n ∈ type.names, (t.name? n).isSome) → Grows P s (t.register type).2

/-! ## The names that a schema knows -/

/-- The schema knows no names but some. -/
def Schema.NamesWithin (s : Schema) (P : String → Prop) : Prop := ∀ name ∈ s.names, P name

theorem Schema.NamesWithin.intern (hs : s.NamesWithin P) (hname : P name) :
    (s.intern name).2.NamesWithin P := by
  cases hfind : s.nameId? name with
  | some n =>
    rw [Schema.intern_of_nameId?_eq_some hfind]
    exact hs
  | none =>
    rw [Schema.intern_of_nameId?_eq_none hfind]
    intro text htext
    rcases Array.mem_push.mp htext with htext | rfl
    · exact hs text htext
    · exact hname

theorem Schema.NamesWithin.register (hs : s.NamesWithin P) (type : Composite) :
    (s.register type).2.NamesWithin P := by
  unfold Schema.NamesWithin
  rwa [Schema.names_register]

theorem Schema.NamesWithin.union (hs : s.NamesWithin P) (a b : TypeId) :
    (s.union a b).2.NamesWithin P := by
  unfold Schema.NamesWithin
  rwa [Schema.names_union]

/-- No names but some are known if no others were interned. -/
theorem Schema.Grows.namesWithin (h : s.Grows P t) (hs : s.NamesWithin P) : t.NamesWithin P := by
  induction h with
  | refl => exact hs
  | intern _ hname ih => exact ih.intern hname
  | union a b _ ih => exact ih.union a b
  | register _ _ ih => exact ih.register _

theorem Schema.namesWithin_empty : Schema.empty.NamesWithin P := by
  intro name hname
  simp [Schema.empty] at hname

/-! ## Scanning -/

theorem grows_scanItems {depth : Nat} {element : TypeId}
    (ih : ∀ item ∈ items, ∀ {t : Schema}, t.WellFormed → s.Grows P t →
      s.Grows P (scanner.scanNode source depth t item).2)
    (ht : t.WellFormed) (he : t.Knows element) (h : s.Grows P t) :
    s.Grows P (scanner.scanItems source depth t element items).2 := by
  induction items generalizing t element with
  | nil =>
    rw [Scanner.scanItems]
    exact h
  | cons item items ih' =>
    have hitem := ih item List.mem_cons_self ht h
    have hscans : Scans t item (scanner.scanNode source depth t item) := scans_scanNode ht
    rw [Scanner.scanItems]
    generalize scanner.scanNode source depth t item = r at hitem hscans
    obtain ⟨outcome, t₁⟩ := r
    cases outcome with
    | error e => exact hitem
    | ok cell =>
      have hjoin := Schema.joins_union hscans.wellFormed (hscans.extended.knows he)
        (hscans.scanned cell rfl).knows
      have hrest := ih' (fun i hi _ ht => ih i (List.mem_cons_of_mem _ hi) ht) hjoin.wellFormed
        hjoin.knows (hitem.union element cell.type)
      dsimp only
      generalize scanner.scanItems source depth (t₁.union element cell.type).2
        (t₁.union element cell.type).1 items = r at hrest
      obtain ⟨outcome, t₂⟩ := r
      cases outcome <;> exact hrest

theorem grows_scanMembers {depth : Nat} {seen : List NameId} {names : List String}
    (ih : ∀ m ∈ members, ∀ {t : Schema}, t.WellFormed → s.Grows P t →
      s.Grows P (scanner.scanNode source depth t m.2).2)
    (hkeys : ∀ m ∈ members, ∀ name, m.1.name? = some name → P name)
    (hnames : decodeNames members = .ok names) (ht : t.WellFormed) (h : s.Grows P t) :
    s.Grows P (scanner.scanMembers source depth t seen names members).2 := by
  induction members generalizing t seen names with
  | nil =>
    rw [Scanner.scanMembers]
    exact h
  | cons member members ih' =>
    obtain ⟨key, node⟩ := member
    obtain ⟨name, rest, hkey, hrest, rfl⟩ := decodeNames_cons hnames
    have hinterns := Schema.interns_intern ht name
    have hintern := h.intern (hkeys (key, node) List.mem_cons_self name hkey)
    rw [Scanner.scanMembers]
    generalize t.intern name = r at hinterns hintern
    obtain ⟨id, t₁⟩ := r
    have hnode := ih (key, node) List.mem_cons_self hinterns.wellFormed hintern
    have hscans : Scans t₁ node (scanner.scanNode source depth t₁ node) :=
      scans_scanNode hinterns.wellFormed
    dsimp only at hnode hscans ⊢
    -- A name that was seen before ends the scan, but it has been looked up by then.
    split
    · exact hintern
    generalize scanner.scanNode source depth t₁ node = r at hnode hscans
    obtain ⟨outcome, t₂⟩ := r
    cases outcome with
    | error e => exact hnode
    | ok cell =>
      have hmembers := @ih' _ (id :: seen) rest
        (fun m hm _ ht => ih m (List.mem_cons_of_mem _ hm) ht)
        (fun m hm => hkeys m (List.mem_cons_of_mem _ hm)) hrest hscans.wellFormed hnode
      dsimp only
      generalize scanner.scanMembers source depth t₂ (id :: seen) rest members = r at hmembers
      obtain ⟨outcome, t₃⟩ := r
      cases outcome <;> exact hmembers

/-- **A scan interns the names in the value and no others**, and registers no type whose names are
not known, whether or not it succeeds. -/
theorem grows_scanNode {depth : Nat} (ht : t.WellFormed) (h : s.Grows P t)
    (hnode : ∀ name, node.HasName name → P name) :
    s.Grows P (scanner.scanNode source depth t node).2 := by
  induction node generalizing t depth with
  | array span items ih =>
    rw [Scanner.scanNode]
    split
    · exact h
    have hitems : s.Grows P (scanner.scanItems source (depth + 1) t .null items).2 :=
      grows_scanItems (fun item hitem _ ht h =>
        ih item hitem ht h fun name hname => hnode name (hasName_of_item hitem hname)) ht
        Schema.knows_null h
    generalize scanner.scanItems source (depth + 1) t .null items = r at hitems
    obtain ⟨outcome, t₁⟩ := r
    cases outcome with
    | error e => exact hitems
    | ok result => exact hitems.register (by simp [Composite.names])
  | object span members ih =>
    rw [Scanner.scanNode]
    split
    · exact h
    cases hnames : decodeNames members with
    | error fault => exact h
    | ok names =>
      have hmembers : s.Grows P (scanner.scanMembers source (depth + 1) t [] names members).2 :=
        grows_scanMembers (fun m hm _ ht h =>
            ih m hm ht h fun name hname => hnode name (hasName_of_member hm (.inr hname)))
          (fun m hm name hname => hnode name (hasName_of_member hm (.inl hname))) hnames ht h
      have hscans : ScansMembers t [] members
          (scanner.scanMembers source (depth + 1) t [] names members) :=
        scansMembers_scanMembers (fun m hm _ ht => scans_scanNode ht) hnames ht
      dsimp only
      generalize scanner.scanMembers source (depth + 1) t [] names members = r at hmembers hscans
      obtain ⟨outcome, t₁⟩ := r
      cases outcome with
      | error e => exact hmembers
      | ok cells =>
        -- The names of the type are those of the members, which are in the schema by now.
        refine hmembers.register fun n hn => ?_
        simp only [Composite.names, List.map_map, List.mem_map] at hn
        obtain ⟨entry, hentry, rfl⟩ := hn
        exact Option.isSome_iff_exists.mpr ((hscans.scanned cells rfl).exists_name hentry)
  | _ =>
    rw [Scanner.scanNode]
    exact h

end JsonLines
