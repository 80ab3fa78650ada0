/-
JsonLines.Proofs.Dataset.Projecting — what a projection gives, and the ways to ask for it.

What is in a row is told by the value that its text is read as (`ReadsAs`). A view knows the names
that occur in these values, at any depth, and no others (`mem_names_iff`), so a projection is made
when a name is written somewhere. It looks at the outermost object alone: a row of the projection is
the member of that name, and is absent where there is none (`Projects`).

The columns of a record dataset come from its type and not from its rows. Still they hold the
members of every row, each once (`perm_members`): the type has a field for each member of a row,
since it covers the row, and no two fields of one name.
-/
import JsonLines.Proofs.Dataset.Selecting

namespace JsonLines

open Json

variable {s : Schema} {m : Node} {row c : Cell} {n : NameId} {name : String}
  {members : List (Key × Node)} {cells : List (NameId × Cell)} {fields : List Field}

/-! ## Members and their images -/

/-- The members that are found are those that are there, if no name is there twice. -/
theorem Cell.member?_eq_some_iff (hnd : (row.members.map Prod.fst).Nodup) :
    row.member? n = some c ↔ (n, c) ∈ row.members := by
  rw [Cell.member?, Option.map_eq_some_iff]
  constructor
  · rintro ⟨entry, hfind, rfl⟩
    have hname : entry.1 = n := by simpa using List.find?_some hfind
    exact hname ▸ List.mem_of_find?_eq_some hfind
  · intro hmem
    cases hfind : row.members.find? (·.1 = n) with
    | none => simpa using List.find?_eq_none.mp hfind _ hmem
    | some entry =>
      have hname : entry.1 = n := by simpa using List.find?_some hfind
      have hentry := List.mem_of_find?_eq_some hfind
      exact ⟨entry, rfl, by rw [List.inj_on_of_nodup_map hnd hentry hmem hname]⟩

/-- No name is bound twice in an image. -/
theorem Scanned.nodup_members (h : Scanned s m row) : (row.members.map Prod.fst).Nodup := by
  cases m with
  | object span members =>
    obtain ⟨type, cells, fields, rfl, -, hnd, -⟩ := h
    exact hnd
  | array span items =>
    obtain ⟨type, cells, element, rfl, -⟩ := h
    exact .nil
  | _ =>
    simp only [Scanned] at h
    subst h
    exact .nil

/-- What is no object has no members. -/
theorem Scanned.members_eq_nil (h : Scanned s m row)
    (hm : ∀ span members, m ≠ .object span members) : row.members = [] := by
  cases m with
  | object span members => exact absurd rfl (hm span members)
  | array span items =>
    obtain ⟨type, cells, element, rfl, -⟩ := h
    rfl
  | _ =>
    simp only [Scanned] at h
    subst h
    rfl

namespace View

variable {root v w : View} {i k : Nat} {views : List (String × View)}

/-! ## What a row is read as -/

/-- A row is read as a value: it has a text, which is that of the value. -/
def ReadsAs (v : View) (i : Nat) (m : Node) : Prop :=
  ∃ span, spanOf? (v.rowAt i) = some span ∧ Scanner.readTree v.source span = .ok m

/-- The value is bound to the name in a row, which is read as an object. -/
def HasMember (v : View) (i : Nat) (name : String) (m : Node) : Prop :=
  ∃ span members key, v.ReadsAs i (.object span members) ∧ (key, m) ∈ members ∧
    key.name? = some name

theorem ReadsAs.scanned (hv : v.Sound) (h : v.ReadsAs i m) :
    Scanned v.schema m (v.rowAt i) ∧ Scanner.readTree v.source m.span = .ok m := by
  obtain ⟨span, hspan, hread⟩ := h
  exact ⟨(hv.stores_rowAt i).scanned hspan hread, (readTree_part hread .self).1⟩

theorem readsAs_of_scanned (hscanned : Scanned v.schema m (v.rowAt i))
    (hread : Scanner.readTree v.source m.span = .ok m) : v.ReadsAs i m :=
  ⟨m.span, spanOf?_of_scanned hscanned hread, hread⟩

theorem absent_or_readsAs (hv : v.Sound) (i : Nat) :
    v.rowAt i = .absent ∨ ∃ m, v.ReadsAs i m := by
  rcases hv.stores_rowAt i with habsent | ⟨m, hscanned, hread, -⟩
  · exact .inl habsent
  · exact .inr ⟨m, readsAs_of_scanned hscanned hread⟩

theorem spanOf?_eq_none_iff : spanOf? c = none ↔ c.isAbsent = true := by
  unfold spanOf?
  split <;> simp_all

theorem spanOf?_eq_some_iff {span : Span} :
    spanOf? c = some span ↔ c.isAbsent = false ∧ c.span = span := by
  unfold spanOf?
  split <;> simp_all

/-- A row of the array of rows is the row of its number. -/
theorem hasRow_of_lt (hk : k < v.rows.toList.length) :
    v.HasRow (k + 1) ∧ v.rows.toList[k] = v.rowAt (k + 1) := by
  have hrow : v.HasRow (k + 1) := by
    refine ⟨Nat.le_add_left 1 k, ?_⟩
    rw [rowCount, ← Array.length_toList]
    exact hk
  have hget := getElem?_rows hrow
  rw [Nat.add_sub_cancel, ← Array.getElem?_toList, List.getElem?_eq_getElem hk] at hget
  exact ⟨hrow, Option.some.inj hget⟩

/-! ## The names that a view knows -/

/-- **A view knows the names in its rows**, at any depth, and no others. -/
theorem mem_names_iff {source : ByteSource} {config : Config}
    (hroot : load source config = .ok root) (hchain : root.Chain v) :
    name ∈ v.schema.names ↔ ∃ i m, v.HasRow i ∧ v.ReadsAs i m ∧ m.HasName name := by
  constructor
  · intro hname
    obtain ⟨picks, hgather⟩ := exists_gather hroot hchain
    obtain ⟨hgathered, -⟩ := Contents.gathered_gather hgather
    have hgrows : Schema.empty.Grows
        (fun name => ∃ i m, v.HasRow i ∧ v.ReadsAs i m ∧ m.HasName name) v.contents.schema := by
      refine Contents.grows_gather ?_ hgather
      intro pick hpick span hspan node hread text htext
      -- The row that was gathered from the pick is read as the same value.
      obtain ⟨k, hk, rfl⟩ := List.getElem_of_mem hpick
      have hk' : k < v.rows.toList.length := hgathered.images.length_eq ▸ hk
      obtain ⟨hrow, hget⟩ := hasRow_of_lt hk'
      have hpicked := hgathered.images.get hk hk'
      simp only [List.get_eq_getElem, Picked, Option.mem_def.mp hspan] at hpicked
      obtain ⟨node', hread', hscanned⟩ := hpicked
      cases hread.symm.trans hread'
      exact ⟨k + 1, node, hrow, readsAs_of_scanned (hget ▸ hscanned) (readTree_part hread .self).1,
        htext⟩
    exact hgrows.namesWithin Schema.namesWithin_empty name hname
  · rintro ⟨i, m, -, hreads, hname⟩
    exact (hreads.scanned (sound_chain hroot hchain)).1.mem_names hname

/-! ## Projections -/

/-- The members of a row are the images of what is bound to their names. -/
theorem hasMember_iff (hv : v.Sound) (hn : v.schema.name? n = some name) :
    v.HasMember i name m ↔ ∃ c, (v.rowAt i).member? n = some c ∧ Scanned v.schema m c ∧
      Scanner.readTree v.source m.span = .ok m := by
  constructor
  · rintro ⟨span, members, key, hreads, hmember, hkey⟩
    obtain ⟨hscanned, hread⟩ := hreads.scanned hv
    have hnd := hscanned.nodup_members
    obtain ⟨type, cells, fields, hrow, hmembers, -⟩ := hscanned
    obtain ⟨⟨id, c⟩, hentry, hc, text, htext, hid⟩ :=
      exists_of_forall₂ hmembers.forall₂.flip hmember
    cases hkey.symm.trans htext
    cases Schema.name_inj hid hn
    refine ⟨c, (Cell.member?_eq_some_iff hnd).mpr ?_, hc,
      (readTree_part hread (.member hmember .self)).1⟩
    rwa [hrow]
  · rintro ⟨c, hmember, hc, hread⟩
    rcases absent_or_readsAs hv i with habsent | ⟨row, hreads⟩
    · rw [habsent] at hmember
      cases hmember
    obtain ⟨hscanned, hrow⟩ := hreads.scanned hv
    rw [Cell.member?_eq_some_iff hscanned.nodup_members] at hmember
    by_cases hobject : ∃ span members, row = .object span members
    · obtain ⟨span, members, rfl⟩ := hobject
      obtain ⟨type, cells, fields, heq, hmembers, -⟩ := hscanned
      rw [heq] at hmember
      obtain ⟨⟨key, m'⟩, hm', hc', text, htext, hid⟩ := exists_of_forall₂ hmembers.forall₂ hmember
      -- Both values are read from the span of the member.
      have hread' := (readTree_part hrow (.member hm' .self)).1
      rw [← hc'.span_eq, hc.span_eq] at hread'
      cases hread.symm.trans hread'
      cases hid.symm.trans hn
      exact ⟨span, members, key, hreads, hm', htext⟩
    · rw [hscanned.members_eq_nil fun span members heq => hobject ⟨span, members, heq⟩] at hmember
      cases hmember

theorem spanOf?_column (hv : v.Sound) (hw : v.column n name = .ok w) (hi : v.HasRow i) :
    spanOf? (w.rowAt i) = ((v.rowAt i).member? n).bind spanOf? := by
  rw [bind_spanOf?, (counterparts_column hv hw hi).spanOf?_eq]

/-- A member of a row has a text. -/
theorem exists_hasMember (hv : v.Sound) (hn : v.schema.name? n = some name)
    (hmember : (v.rowAt i).member? n = some c) :
    spanOf? c = some c.span ∧ ∃ m, v.HasMember i name m := by
  rcases absent_or_readsAs hv i with habsent | ⟨row, hreads⟩
  · rw [habsent] at hmember
    cases hmember
  obtain ⟨hscanned, hread⟩ := hreads.scanned hv
  obtain ⟨m, hm, hc⟩ := hscanned.part (Cell.part_of_member? hmember)
  have hread' := (readTree_part hread hm).1
  exact ⟨hc.span_eq ▸ spanOf?_of_scanned hc hread',
    m, (hasMember_iff hv hn).mpr ⟨c, hmember, hc, hread'⟩⟩

/-- The second view holds the member of a name of each row of the first one. -/
structure Projects (v : View) (name : String) (w : View) : Prop where
  rowCount_eq : w.rowCount = v.rowCount
  rowNumber_eq : ∀ k, w.rowNumber k = v.rowNumber k
  /-- The row of a member is where the member is. -/
  member : ∀ i m, v.HasRow i → v.HasMember i name m →
    (w.rowAt i).span = m.span ∧ w.ReadsAs i m
  absent : ∀ i, v.HasRow i → (∀ m, ¬ v.HasMember i name m) → w.rowAt i = .absent

/-- **A column holds the members of its name**, row by row. -/
theorem projects_column (hv : v.Sound) (hn : v.schema.name? n = some name)
    (hw : v.column n name = .ok w) : v.Projects name w where
  rowCount_eq := rowCount_column hv hw
  rowNumber_eq k := by
    rw [rowNumber, (regathered_column hv hw).provenance_eq]
    rfl
  member i m hi h := by
    obtain ⟨c, hmember, hc, hread⟩ := (hasMember_iff hv hn).mp h
    have hspan : spanOf? (w.rowAt i) = some m.span := by
      rw [spanOf?_column hv hw hi, hmember]
      exact spanOf?_of_scanned hc hread
    have hreads : w.ReadsAs i m := by
      refine ⟨m.span, hspan, ?_⟩
      rwa [(regathered_column hv hw).source_eq]
    exact ⟨(hreads.scanned (regathered_column hv hw).sound).1.span_eq, hreads⟩
  absent i hi h := by
    cases hmember : (v.rowAt i).member? n with
    | some c =>
      obtain ⟨m, hm⟩ := (exists_hasMember hv hn hmember).2
      exact absurd hm (h m)
    | none =>
      have hrow := counterparts_column hv hw hi
      rw [hmember, Option.getD_none] at hrow
      exact hrow.eq_absent

/-! ## Columns -/

/-- The names and the texts of the columns that are not absent from a row. Names are given as keys
give them, which have none when they do not decode. -/
def presentTexts (views : List (String × View)) (i : Nat) : List (Option String × ByteArray) :=
  (views.filter fun column => !(column.2.rowAt i).isAbsent).map fun column =>
    (some column.1, column.2.bytesOf (column.2.rowAt i))

/-- The names and the texts of members. -/
def memberTexts (v : View) (members : List (Key × Node)) : List (Option String × ByteArray) :=
  members.map fun member => (member.1.name?, v.source.slice member.2.span)

/-- The name and the text of the image of a member. -/
def boundText (v : View) (entry : NameId × Cell) : Option String × ByteArray :=
  (some (v.schema.name entry.1), v.bytesOf entry.2)

/-- The member of a name, if there is one, with its name. -/
def bound? (row : Cell) (n : NameId) : Option (NameId × Cell) :=
  (row.member? n).map fun c => (n, c)

theorem memberTexts_eq (h : ScannedMembers v.schema members cells) :
    v.memberTexts members = cells.map v.boundText := by
  refine map_eq_map_of_forall₂ h.forall₂ fun member entry hmember => ?_
  obtain ⟨hc, text, htext, hid⟩ := hmember
  have hname : v.schema.name entry.1 = text := by rw [Schema.name, hid]; rfl
  rw [boundText, htext, hname, bytesOf, hc.span_eq]

/-- The columns of some fields hold the members of a row that have their names. -/
theorem presentTexts_eq (hv : v.Sound) (hi : v.HasRow i)
    (hknown : ∀ f ∈ fields, ∃ name, v.schema.name? f.name = some name)
    (h : v.columnsOf fields = .ok views) : presentTexts views i =
      ((fields.map (·.name)).filterMap (bound? (v.rowAt i))).map v.boundText := by
  rw [columnsOf_eq_ok_iff] at h
  induction h with
  | nil => rfl
  | @cons f column fields views hcolumn _ ih =>
    obtain ⟨⟨name, hname⟩, hknown⟩ := List.forall_mem_cons.mp hknown
    obtain ⟨htext, hw⟩ := namedColumn_eq_ok_iff.mp hcolumn
    have hspan := spanOf?_column hv hw hi
    have htail := ih hknown
    unfold presentTexts at htail ⊢
    rw [List.map_cons, List.filterMap_cons, bound?]
    cases hmember : (v.rowAt i).member? f.name with
    | none =>
      rw [hmember, Option.bind_none, spanOf?_eq_none_iff] at hspan
      rw [List.filter_cons_of_neg (by simp [hspan]), htail]
      rfl
    | some c =>
      rw [hmember, Option.bind_some, (exists_hasMember hv hname hmember).1,
        spanOf?_eq_some_iff] at hspan
      rw [List.filter_cons_of_pos (by simp [hspan.1]), List.map_cons, htail, bytesOf, hspan.2,
        (regathered_column hv hw).source_eq, ← htext]
      rfl

/-- The type of a record dataset covers its rows, so it has a field for each of their members. -/
theorem mem_names_of_member (hv : v.Sound) (hfields : v.fields? = some fields)
    (hscanned : Scanned v.schema m (v.rowAt i)) (hi : v.HasRow i)
    (hmember : (v.rowAt i).member? n = some c) : n ∈ fields.map (·.name) := by
  have hrow : v.rowAt i ∈ v.rows.toList :=
    Array.mem_toList_iff.mpr (Array.mem_of_getElem? (getElem?_rows hi))
  have hle : v.schema.tree (v.rowAt i).type ≤ v.schema.recordTree fields :=
    hv.joinAll_of_fields? hfields ▸ TypeTree.le_joinAll (List.mem_map_of_mem hrow)
  rcases TypeTree.le_record_iff.mp hle with htree | ⟨p, a, htree, hjoin⟩
  · rw [hscanned.member?_eq_none hv.wellFormed (by simp [htree])] at hmember
    cases hmember
  · -- A member that is required of the row cannot be lacking from what covers it.
    have hrequired := (hscanned.tree_record hv.wellFormed htree n).1
    rw [hmember, Option.isSome_some, if_pos rfl] at hrequired
    by_contra hlacking
    have hpresence := (hjoin n).1
    rw [hrequired, Field.named?_eq_none_iff.mpr hlacking] at hpresence
    exact absurd hpresence (by decide)

/-- **The fields of a record dataset name the members of its rows**, each once. -/
theorem perm_members (hv : v.Sound) (hfields : v.fields? = some fields)
    (hscanned : Scanned v.schema m (v.rowAt i)) (hi : v.HasRow i) :
    (v.rowAt i).members.Perm ((fields.map (·.name)).filterMap (bound? (v.rowAt i))) := by
  have hnd := hscanned.nodup_members
  have hnames := hv.wellFormed.names_nodup (Schema.fields?_eq_some_iff.mp hfields)
  refine (List.perm_ext_iff_of_nodup (.of_map _ hnd) (.filterMap ?_ hnames)).mpr fun entry => ?_
  · intro n n' entry hn hn'
    simp only [bound?, Option.mem_def, Option.map_eq_some_iff] at hn hn'
    obtain ⟨c, -, rfl⟩ := hn
    obtain ⟨c', -, heq⟩ := hn'
    exact (congrArg Prod.fst heq).symm
  · obtain ⟨n, c⟩ := entry
    rw [List.mem_filterMap]
    simp only [bound?, Option.map_eq_some_iff, Prod.mk.injEq]
    constructor
    · intro hentry
      have hmember := (Cell.member?_eq_some_iff hnd).mpr hentry
      exact ⟨n, mem_names_of_member hv hfields hscanned hi hmember, c, hmember, rfl, rfl⟩
    · rintro ⟨n', -, c', hmember, rfl, rfl⟩
      exact (Cell.member?_eq_some_iff hnd).mp hmember

/-- How the columns of a record dataset go with its fields and its rows. -/
structure HasColumns (v : View) (names : List String) (views : List (String × View)) : Prop where
  names_eq : v.names? = some names
  columns_eq : v.columns = .ok views
  map_name : views.map Prod.fst = names
  /-- A column, the field of its number and the field of its name are equal in their rows, their
  schemas, their types and where they come from. -/
  same : ∀ (k : Nat) name w, views[k]? = some (name, w) →
    v.subscript (k + 1) = .ok w ∧ v.field? name = .ok (some w)
  /-- The members of an object are the columns that are not absent from its row. -/
  members : ∀ i span members, v.HasRow i → v.ReadsAs i (.object span members) →
    (v.memberTexts members).Perm (presentTexts views i)
  /-- All columns are absent from a row that is no object. -/
  others : ∀ i, v.HasRow i → (∀ span members, ¬ v.ReadsAs i (.object span members)) →
    presentTexts views i = []

theorem exists_fields (h : v.isRecord = true) : ∃ fields, v.fields? = some fields := by
  have hkind : v.schema.kind v.type = .record := of_decide_eq_true h
  unfold fields? Schema.fields?
  unfold Schema.kind at hkind
  cases hget : v.schema.get? v.type with
  | none => simp [hget] at hkind
  | some type =>
    rw [hget] at hkind
    cases type with
    | composite composite =>
      cases composite with
      | record fields => exact ⟨fields, rfl⟩
      | array element => cases hkind
    | _ => cases hkind

/-- **A record dataset has columns** that hold the members of its rows. -/
theorem hasColumns (hv : v.Sound) (hrecord : v.isRecord = true) :
    ∃ names views, v.HasColumns names views := by
  obtain ⟨fields, hfields⟩ := exists_fields hrecord
  obtain ⟨views, hviews, hlength, hagree⟩ := columns_agree hv hfields
  have hcolumns : v.columnsOf fields = .ok views := by
    rwa [columns, hfields] at hviews
  have hknown : ∀ f ∈ fields, ∃ name, v.schema.name? f.name = some name := fun f hf =>
    exists_fieldName hv hfields hf
  refine ⟨fields.map fun f => v.schema.name f.name, views, ?_, hviews, ?_, ?_, ?_, ?_⟩
  · rw [names?, hfields]
    rfl
  · exact (map_eq_map_of_forall₂ (columnsOf_eq_ok_iff.mp hcolumns) fun f column hcolumn =>
      (namedColumn_eq_ok_iff.mp hcolumn).1).symm
  · intro k name w hk
    obtain ⟨hlt, -⟩ := List.getElem?_eq_some_iff.mp hk
    rw [hlength] at hlt
    obtain ⟨name', w', hk', hcolumn⟩ := hagree k fields[k] (List.getElem?_eq_getElem hlt)
    cases hk.symm.trans hk'
    exact ⟨hcolumn.subscript_eq, hcolumn.field_eq⟩
  · intro i span members hi hreads
    have hscanned := (hreads.scanned hv).1
    have hperm := (perm_members hv hfields hscanned hi).map v.boundText
    obtain ⟨type, cells, fields, hrow, hmembers, -⟩ := hscanned
    rw [presentTexts_eq hv hi hknown hcolumns, memberTexts_eq hmembers]
    rwa [hrow] at hperm ⊢
  · intro i hi hobject
    have hmembers : (v.rowAt i).members = [] := by
      rcases absent_or_readsAs hv i with habsent | ⟨m, hreads⟩
      · rw [habsent]
        rfl
      · refine (hreads.scanned hv).1.members_eq_nil ?_
        rintro span members rfl
        exact hobject span members hreads
    have hnone : (fields.map (·.name)).filterMap (bound? (v.rowAt i)) = [] := by
      rw [List.filterMap_eq_nil_iff]
      intro n _
      rw [bound?, Cell.member?, hmembers]
      rfl
    rw [presentTexts_eq hv hi hknown hcolumns, hnone, List.map_nil]

/-! ## Projections and columns of a view -/

/-- What is projected from a view, and that all ways to ask for a field agree. -/
structure ProjectsExactly (v : View) : Prop where
  /-- There is no projection on a name that no object in a row has, at any depth. -/
  unknown_iff : ∀ name, v.field? name = .ok none ↔
    ∀ i m, v.HasRow i → v.ReadsAs i m → ¬ m.HasName name
  /-- On any other name there is one. -/
  known : ∀ name i m, v.HasRow i → v.ReadsAs i m → m.HasName name →
    ∃ w, v.field? name = .ok (some w) ∧ v.Projects name w
  columns : v.isRecord = true → ∃ names views, v.HasColumns names views

/-- **Projections hold the members of all rows**, and a record dataset has all members in its
columns, over every chain of views. -/
theorem projects_exactly {source : ByteSource} {config : Config}
    (hroot : load source config = .ok root) (h : root.Chain v) : v.ProjectsExactly := by
  have hv := sound_chain hroot h
  refine ⟨fun name => ?_, fun name i m hi hreads hname => ?_, hasColumns hv⟩
  · rw [field?_eq_ok_none_iff hv]
    constructor
    · intro hnone i m hi hreads hname
      obtain ⟨n, hn⟩ :=
        Schema.mem_names_iff.mp ((mem_names_iff hroot h).mpr ⟨i, m, hi, hreads, hname⟩)
      exact Schema.nameId?_eq_none hnone n hn
    · intro hall
      cases hid : v.schema.nameId? name with
      | none => rfl
      | some n =>
        have hname := Schema.nameId?_eq_some_iff.mp hid
        obtain ⟨i, m, hi, hreads, hm⟩ :=
          (mem_names_iff hroot h).mp (Schema.mem_names_iff.mpr ⟨n, hname⟩)
        exact absurd hm (hall i m hi hreads)
  · obtain ⟨n, hn⟩ :=
      Schema.mem_names_iff.mp ((mem_names_iff hroot h).mpr ⟨i, m, hi, hreads, hname⟩)
    obtain ⟨w, hw⟩ := exists_column hv n name
    refine ⟨w, field?_eq_ok_some_iff.mpr ⟨n, ?_, hw⟩, projects_column hv hn hw⟩
    exact Schema.nameId?_eq_some_iff.mpr hn

/-- Three records: the member of one lacks a field, and that of another is null. -/
def scatteredMembers : ByteSource :=
  .ofString "\x7b\"p\":\x7b\"a\":1,\"b\":\"x\"\x7d\x7d\n\x7b\"p\":null\x7d\n\x7b\"p\":\x7b\"b\":2\x7d\x7d\n"

/-- The projection on the members, which are a record dataset. -/
theorem projects_exactly_scatteredMembers : ∃ root v, load scatteredMembers {} = .ok root ∧
    root.Chain v ∧ v.rowCount = 3 ∧ v.isRecord = true ∧ v.ProjectsExactly := by
  have hrun : ((load scatteredMembers {}).toOption.bind fun root =>
      (root.field? "p").toOption.bind fun field => field.map fun v =>
        (v.rowCount, v.isRecord)) = some (3, true) := by
    decide +kernel
  obtain ⟨root, hload, hrun⟩ := Option.bind_eq_some_iff.mp hrun
  obtain ⟨field, hfield, hrun⟩ := Option.bind_eq_some_iff.mp hrun
  obtain ⟨v, rfl, hfacts⟩ := Option.map_eq_some_iff.mp hrun
  obtain ⟨hcount, hrecord⟩ := Prod.mk.inj hfacts
  have hroot := eq_ok_of_toOption hload
  have hchain : root.Chain v := .single (.field (eq_ok_of_toOption hfield))
  exact ⟨root, v, hroot, hchain, hcount, hrecord, projects_exactly hroot hchain⟩

end View

end JsonLines
