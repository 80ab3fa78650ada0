/-
JsonLines.Proofs.Scan.Copying — a copied text scans to a copy of the tree.

`Copied source source' m n` says that the second value is the first one at another place, of another
source perhaps: shape, contents, and at every part the bytes that its span cuts out. Characters that
stand in two sources write two such values (`Writes.exists_copied`). Scanning them registers the
same names and types in the same order and gives cells that differ in nothing but where their spans
point (`scanNode_copied`): in a scan that succeeds, places matter to spans alone.
-/
import JsonLines.Proofs.Scan.Parts
import JsonLines.Proofs.Scan.Rereading
import JsonLines.Proofs.Scan.Steps

namespace JsonLines

open Utf8 Json

/-! ## Copies of values -/

mutual

/-- The second value is the first one at another place. -/
def Copied (source source' : ByteSource) : Node → Node → Prop
  | .null span, n => ∃ span', n = .null span' ∧ source.slice span = source'.slice span'
  | .boolean span value, n => ∃ span', n = .boolean span' value ∧
    source.slice span = source'.slice span'
  | .number span numeral, n => ∃ span', n = .number span' numeral ∧
    source.slice span = source'.slice span'
  | .text span raw, n => ∃ span', n = .text span' raw ∧ source.slice span = source'.slice span'
  | .array span items, n => ∃ span' items', n = .array span' items' ∧
    source.slice span = source'.slice span' ∧ CopiedItems source source' items items'
  | .object span members, n => ∃ span' members', n = .object span' members' ∧
    source.slice span = source'.slice span' ∧ CopiedMembers source source' members members'

/-- Items, one by one. -/
def CopiedItems (source source' : ByteSource) : List Node → List Node → Prop
  | [], ns => ns = []
  | item :: items, ns => ∃ n ns', ns = n :: ns' ∧ Copied source source' item n ∧
    CopiedItems source source' items ns'

/-- Members, one by one and under names that are written alike. -/
def CopiedMembers (source source' : ByteSource) :
    List (Key × Node) → List (Key × Node) → Prop
  | [], ns => ns = []
  | (key, node) :: members, ns => ∃ key' n ns', ns = (key', n) :: ns' ∧ key'.raw = key.raw ∧
    Copied source source' node n ∧ CopiedMembers source source' members ns'

end

variable {source source' : ByteSource} {p q : Nat} {cs : List Char} {node n : Node}
  {items items' : List Node} {members members' : List (Key × Node)} {scanner : Scanner}
  {depth : Nat} {s t : Schema} {cell : Cell}

/-- Characters that stand in two places are two copies of one text. -/
theorem ByteSource.Shows.slice_eq_slice (h : source.Shows p cs) (h' : source'.Shows q cs) :
    source.slice ⟨p, width cs⟩ = source'.slice ⟨q, width cs⟩ := by
  rw [h.slice_eq, h'.slice_eq]

namespace Json

theorem WritesItems.exists_copied
    (ih : ∀ item ∈ items, ∀ {p q : Nat} {cs : List Char}, Writes p cs item → source.Shows p cs →
      source'.Shows q cs → ∃ n, Writes q cs n ∧ Copied source source' item n)
    (h : WritesItems p cs items) (hs : source.Shows p cs) (hs' : source'.Shows q cs) :
    ∃ ns, WritesItems q cs ns ∧ CopiedItems source source' items ns := by
  induction items generalizing p q cs with
  | nil => exact ⟨[], h, rfl⟩
  | cons item items ih' =>
    obtain ⟨before, own, after, rest, rfl, hbefore, hown, hafter, htail⟩ := h
    obtain ⟨n, hn, hcopied⟩ :=
      ih item List.mem_cons_self hown hs.right.left hs'.right.left
    rcases htail with ⟨rfl, rfl⟩ | ⟨hne, tail, rfl, hitems⟩
    · exact ⟨[n], ⟨before, own, after, [], rfl, hbefore, hn, hafter, .inl ⟨rfl, rfl⟩⟩,
        n, [], rfl, hcopied, rfl⟩
    · obtain ⟨ns, hns, hcopies⟩ := ih' (fun i hi => ih i (List.mem_cons_of_mem _ hi)) hitems
        hs.right.right.right.tail hs'.right.right.right.tail
      have hne' : ns ≠ [] := by
        rintro rfl
        obtain ⟨item', items', rfl⟩ := List.exists_cons_of_ne_nil hne
        obtain ⟨_, _, heq, -⟩ := hcopies
        cases heq
      exact ⟨n :: ns, ⟨before, own, after, ',' :: tail, rfl, hbefore, hn, hafter,
        .inr ⟨hne', tail, rfl, hns⟩⟩, n, ns, rfl, hcopied, hcopies⟩

theorem WritesKey.exists_copied {key : Key} (h : WritesKey p cs key) (q : Nat) :
    ∃ key', WritesKey q cs key' ∧ key'.raw = key.raw := by
  obtain ⟨before, after, rfl, hbefore, hafter, hraw, -⟩ := h
  exact ⟨⟨q + width before + 1, key.raw⟩, ⟨before, after, rfl, hbefore, hafter, hraw, rfl⟩, rfl⟩

theorem WritesMembers.exists_copied
    (ih : ∀ m ∈ members, ∀ {p q : Nat} {cs : List Char}, Writes p cs m.2 → source.Shows p cs →
      source'.Shows q cs → ∃ n, Writes q cs n ∧ Copied source source' m.2 n)
    (h : WritesMembers p cs members) (hs : source.Shows p cs) (hs' : source'.Shows q cs) :
    ∃ ns, WritesMembers q cs ns ∧ CopiedMembers source source' members ns := by
  induction members generalizing p q cs with
  | nil => exact ⟨[], h, rfl⟩
  | cons member members ih' =>
    obtain ⟨head, before, own, after, rest, rfl, hkey, hbefore, hown, hafter, htail⟩ := h
    obtain ⟨key, hkey', hraw⟩ := hkey.exists_copied q
    obtain ⟨n, hn, hcopied⟩ :=
      ih member List.mem_cons_self hown hs.right.right.left hs'.right.right.left
    rcases htail with ⟨rfl, rfl⟩ | ⟨hne, tail, rfl, hmembers⟩
    · exact ⟨[(key, n)], ⟨head, before, own, after, [], rfl, hkey', hbefore, hn, hafter,
        .inl ⟨rfl, rfl⟩⟩, key, n, [], rfl, hraw, hcopied, rfl⟩
    · obtain ⟨ns, hns, hcopies⟩ := ih' (fun m hm => ih m (List.mem_cons_of_mem _ hm)) hmembers
        hs.right.right.right.right.tail hs'.right.right.right.right.tail
      have hne' : ns ≠ [] := by
        rintro rfl
        obtain ⟨member', members', rfl⟩ := List.exists_cons_of_ne_nil hne
        obtain ⟨_, _, _, heq, -⟩ := hcopies
        cases heq
      exact ⟨(key, n) :: ns, ⟨head, before, own, after, ',' :: tail, rfl, hkey', hbefore, hn,
        hafter, .inr ⟨hne', tail, rfl, hns⟩⟩, key, n, ns, rfl, hraw, hcopied, hcopies⟩

/-- **Characters that write a value write a copy of it wherever they stand.** -/
theorem Writes.exists_copied (h : Writes p cs node) (hs : source.Shows p cs)
    (hs' : source'.Shows q cs) : ∃ n, Writes q cs n ∧ Copied source source' node n := by
  have hslice := hs.slice_eq_slice hs'
  induction node generalizing p q cs with
  | null span =>
    obtain ⟨rfl, hcs⟩ := h
    exact ⟨.null ⟨q, width cs⟩, ⟨rfl, hcs⟩, _, rfl, hslice⟩
  | boolean span value =>
    obtain ⟨rfl, hcs⟩ := h
    exact ⟨.boolean ⟨q, width cs⟩ value, ⟨rfl, hcs⟩, _, rfl, hslice⟩
  | number span numeral =>
    obtain ⟨rfl, hcs⟩ := h
    exact ⟨.number ⟨q, width cs⟩ numeral, ⟨rfl, hcs⟩, _, rfl, hslice⟩
  | text span raw =>
    obtain ⟨rfl, hcs⟩ := h
    exact ⟨.text ⟨q, width cs⟩ raw, ⟨rfl, hcs⟩, _, rfl, hslice⟩
  | array span items ih =>
    obtain ⟨rfl, inner, rfl, hitems⟩ := h
    obtain ⟨ns, hns, hcopies⟩ := hitems.exists_copied
      (fun i hi _ _ _ h hs hs' => ih i hi h hs hs' (hs.slice_eq_slice hs')) hs.tail.left
      hs'.tail.left
    exact ⟨.array ⟨q, _⟩ ns, ⟨rfl, inner, rfl, hns⟩, _, ns, rfl, hslice, hcopies⟩
  | object span members ih =>
    obtain ⟨rfl, inner, rfl, hmembers⟩ := h
    obtain ⟨ns, hns, hcopies⟩ := hmembers.exists_copied
      (fun m hm _ _ _ h hs hs' => ih m hm h hs hs' (hs.slice_eq_slice hs')) hs.tail.left
      hs'.tail.left
    exact ⟨.object ⟨q, _⟩ ns, ⟨rfl, inner, rfl, hns⟩, _, ns, rfl, hslice, hcopies⟩

/-- A name decodes alike wherever it stands. -/
theorem Key.decode_of_raw_eq {key key' : Key} {name : List Char} (hraw : key'.raw = key.raw)
    (h : key.decode = .ok name) : key'.decode = .ok name := by
  unfold Key.decode at h ⊢
  cases hread : Literal.read key.position (key.raw ++ ['"']) with
  | error e => simp [hread] at h
  | ok result =>
    obtain ⟨text, d⟩ := result
    simp only [hread] at h
    obtain ⟨e, hread'⟩ := Literal.read_of_read hread key'.position
    simp only [hraw, hread']
    exact h

theorem decodeNames_copied {names : List String} (h : CopiedMembers source source' members members')
    (hnames : decodeNames members = .ok names) : decodeNames members' = .ok names := by
  induction members generalizing members' names with
  | nil =>
    simp only [CopiedMembers] at h
    rw [h]
    exact hnames
  | cons member members ih =>
    obtain ⟨key', n, ns, rfl, hraw, -, hcopies⟩ := h
    rw [decodeNames] at hnames ⊢
    cases hkey : member.1.decode with
    | error e => simp [hkey] at hnames
    | ok name =>
      cases hrest : decodeNames members with
      | error e => simp [hkey, hrest] at hnames
      | ok rest =>
        simp only [hkey, hrest] at hnames
        simp only [Key.decode_of_raw_eq hraw hkey, ih hcopies hrest]
        exact hnames

end Json

/-! ## Copies of cells -/

/-- A cell as it looks without the source: the bytes and the type of every value. -/
def ByteSource.outline (source : ByteSource) (cell : Cell) : Outline (ByteArray × TypeId) NameId :=
  cell.outline (fun span type => (source.slice span, type)) id

/-- Two cells that look alike, each in its own source. -/
def Alike (source source' : ByteSource) (c d : Cell) : Prop :=
  source'.outline d = source.outline c

variable {c d : Cell}

theorem Alike.place_eq (h : Alike source source' c d) :
    (source'.slice d.span, d.type) = (source.slice c.span, c.type) := by
  have hplace := congrArg Outline.place h
  simpa only [ByteSource.outline, Cell.place_outline] using hplace

theorem Alike.type_eq (h : Alike source source' c d) : d.type = c.type :=
  (Prod.mk.inj h.place_eq).2

theorem Alike.slice_eq (h : Alike source source' c d) :
    source'.slice d.span = source.slice c.span :=
  (Prod.mk.inj h.place_eq).1

theorem alike_leaf {span span' : Span} {type : TypeId}
    (h : source.slice span = source'.slice span') :
    Alike source source' (.leaf span type) (.leaf span' type) := by
  simp only [Alike, ByteSource.outline, Cell.outline, h]

theorem alike_array {span span' : Span} {type : TypeId} {cells cells' : List Cell}
    (h : source.slice span = source'.slice span')
    (hcells : List.Forall₂ (Alike source source') cells cells') :
    Alike source source' (.array span type cells) (.array span' type cells') := by
  have houtlines : Cell.outlines (fun span type => (source'.slice span, type)) id cells' =
      Cell.outlines (fun span type => (source.slice span, type)) id cells := by
    induction hcells with
    | nil => rfl
    | cons hhead _ ih =>
      rw [Cell.outlines, Cell.outlines, ih]
      exact congrArg (· :: _) hhead
  simp only [Alike, ByteSource.outline, Cell.outline, h, houtlines]

/-- Members with the same name whose cells look alike. -/
def AlikeMember (source source' : ByteSource) (c d : NameId × Cell) : Prop :=
  d.1 = c.1 ∧ Alike source source' c.2 d.2

theorem alike_record {span span' : Span} {type : TypeId} {cells cells' : List (NameId × Cell)}
    (h : source.slice span = source'.slice span')
    (hcells : List.Forall₂ (AlikeMember source source') cells cells') :
    Alike source source' (.record span type cells) (.record span' type cells') := by
  have houtlines : Cell.outlinesOf (fun span type => (source'.slice span, type)) id cells' =
      Cell.outlinesOf (fun span type => (source.slice span, type)) id cells := by
    induction hcells with
    | nil => rfl
    | cons hhead _ ih =>
      rw [Cell.outlinesOf, Cell.outlinesOf, ih, hhead.1]
      exact congrArg (fun o => (_, o) :: _) hhead.2
  simp only [Alike, ByteSource.outline, Cell.outline, h, houtlines]

theorem memberFields_eq_of_forall₂_alike {cells cells' : List (NameId × Cell)}
    (h : List.Forall₂ (AlikeMember source source') cells cells') :
    Cell.memberFields cells' = Cell.memberFields cells := by
  induction h with
  | nil => rfl
  | cons hhead _ ih =>
    simp only [Cell.memberFields, List.map_cons] at ih ⊢
    rw [ih, hhead.1, hhead.2.type_eq]

/-! ## Scanning copies -/

theorem scanItems_copied {element type : TypeId} {cells : List Cell}
    (ih : ∀ item ∈ items, ∀ {n : Node} {s t : Schema} {cell : Cell}, Copied source source' item n →
      scanner.scanNode source depth s item = (.ok cell, t) →
        ∃ d, scanner.scanNode source' depth s n = (.ok d, t) ∧ Alike source source' cell d)
    (h : CopiedItems source source' items items')
    (hscan : scanner.scanItems source depth s element items = (.ok (cells, type), t)) :
    ∃ cells', scanner.scanItems source' depth s element items' = (.ok (cells', type), t) ∧
      List.Forall₂ (Alike source source') cells cells' := by
  induction items generalizing items' s element cells with
  | nil =>
    simp only [CopiedItems] at h
    obtain ⟨rfl, rfl, rfl⟩ := Scanner.scanItems_nil_eq_ok_iff.mp hscan
    exact ⟨[], by rw [h, Scanner.scanItems], .nil⟩
  | cons item items ih' =>
    obtain ⟨n, ns, rfl, hcopied, hcopies⟩ := h
    obtain ⟨c, s₁, cs, hhead, htail, rfl⟩ := Scanner.scanItems_cons_eq_ok_iff.mp hscan
    obtain ⟨d, hhead', halike⟩ := ih item List.mem_cons_self hcopied hhead
    obtain ⟨cells', htail', hcells⟩ :=
      ih' (fun i hi => ih i (List.mem_cons_of_mem _ hi)) hcopies htail
    rw [← halike.type_eq] at htail'
    exact ⟨d :: cells', Scanner.scanItems_cons_eq_ok_iff.mpr ⟨d, s₁, cells', hhead', htail', rfl⟩,
      .cons halike hcells⟩

theorem scanMembers_copied {seen : List NameId} {names : List String}
    {cells : List (NameId × Cell)}
    (ih : ∀ m ∈ members, ∀ {n : Node} {s t : Schema} {cell : Cell}, Copied source source' m.2 n →
      scanner.scanNode source depth s m.2 = (.ok cell, t) →
        ∃ d, scanner.scanNode source' depth s n = (.ok d, t) ∧ Alike source source' cell d)
    (h : CopiedMembers source source' members members')
    (hscan : scanner.scanMembers source depth s seen names members = (.ok cells, t)) :
    ∃ cells', scanner.scanMembers source' depth s seen names members' = (.ok cells', t) ∧
      List.Forall₂ (AlikeMember source source') cells cells' := by
  induction members generalizing members' s seen names cells with
  | nil =>
    simp only [CopiedMembers] at h
    subst h
    rw [Scanner.scanMembers] at hscan ⊢
    cases hscan
    exact ⟨[], rfl, .nil⟩
  | cons member members ih' =>
    obtain ⟨key', n, ns, rfl, -, hcopied, hcopies⟩ := h
    cases names with
    | nil =>
      rw [Scanner.scanMembers] at hscan ⊢
      cases hscan
      exact ⟨[], rfl, .nil⟩
    | cons name names =>
      obtain ⟨hseen, c, s₁, cs, hhead, htail, rfl⟩ := Scanner.scanMembers_cons_eq_ok_iff.mp hscan
      obtain ⟨d, hhead', halike⟩ := ih member List.mem_cons_self hcopied hhead
      obtain ⟨cells', htail', hcells⟩ :=
        ih' (fun m hm => ih m (List.mem_cons_of_mem _ hm)) hcopies htail
      exact ⟨(_, d) :: cells', Scanner.scanMembers_cons_eq_ok_iff.mpr
        ⟨hseen, d, s₁, cells', hhead', htail', rfl⟩, .cons ⟨rfl, halike⟩ hcells⟩

/-- **A copy scans like the original**: to the same schema, and to a cell that looks alike. -/
theorem scanNode_copied (h : Copied source source' node n)
    (hscan : scanner.scanNode source depth s node = (.ok cell, t)) :
    ∃ d, scanner.scanNode source' depth s n = (.ok d, t) ∧ Alike source source' cell d := by
  induction node generalizing n depth s t cell with
  | array span items ih =>
    obtain ⟨span', ns, rfl, hslice, hcopies⟩ := h
    obtain ⟨hdepth, cs, joined, s₁, hitems, rfl, rfl⟩ :=
      Scanner.scanNode_array_eq_ok_iff.mp hscan
    obtain ⟨cells', hitems', hcells⟩ :=
      scanItems_copied (fun i hi _ _ _ _ => ih i hi) hcopies hitems
    exact ⟨_, Scanner.scanNode_array_eq_ok_iff.mpr
      ⟨hdepth, cells', joined, s₁, hitems', rfl, rfl⟩, alike_array hslice hcells⟩
  | object span members ih =>
    obtain ⟨span', ns, rfl, hslice, hcopies⟩ := h
    obtain ⟨hdepth, names, cs, s₁, hnames, hmembers, rfl, rfl⟩ :=
      Scanner.scanNode_object_eq_ok_iff.mp hscan
    obtain ⟨cells', hmembers', hcells⟩ :=
      scanMembers_copied (fun m hm _ _ _ _ => ih m hm) hcopies hmembers
    have hfields := memberFields_eq_of_forall₂_alike hcells
    refine ⟨_, Scanner.scanNode_object_eq_ok_iff.mpr ⟨hdepth, names, cells', s₁,
      decodeNames_copied hcopies hnames, hmembers', rfl, by rw [hfields]⟩, ?_⟩
    rw [hfields]
    exact alike_record hslice hcells
  | _ =>
    obtain ⟨span', rfl, hslice⟩ := h
    rw [Scanner.scanNode] at hscan ⊢
    cases hscan
    exact ⟨_, rfl, alike_leaf hslice⟩

end JsonLines
