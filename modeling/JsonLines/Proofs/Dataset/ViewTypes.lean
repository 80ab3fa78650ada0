/-
JsonLines.Proofs.Dataset.ViewTypes — the types of views agree with the type that they come from.

A view of a view is gathered anew, into a schema of its own. Its type is the join of its rows'
types, and each of its rows is a counterpart of a part of a row, so the types of the two say the
same over the texts of names (`Regathered.typeTree_eq`). Joins go through records field by field and
through arrays (`TypeTree.fieldType_joinAll`, `TypeTree.elementType_joinAll`): the type of a column
is that of its field, and the types of the items of all rows join to the element type. That the
columns are there at all is proved too: what is stored was accepted by the limits, and so are its
parts (`exists_column`).
-/
import JsonLines.Proofs.Dataset.Origin
import JsonLines.Proofs.Scan.Counterparts

namespace JsonLines

open Json

variable {s t : Schema} {m : Node} {row : Cell} {n : NameId} {element : TypeId}

/-! ## The parts of a row and the parts of its type -/

/-- The type of a member, null if there is none. -/
def Schema.treeOfCell? (s : Schema) : Option Cell → TypeTree NameId
  | none => .null
  | some cell => s.tree cell.type

theorem named?_memberFields (cells : List (NameId × Cell)) (n : NameId) :
    Field.named? (Cell.memberFields cells) n =
      (cells.find? (·.1 = n)).map fun m => ⟨m.1, m.2.type, false⟩ := by
  unfold Field.named? Cell.memberFields
  rw [List.find?_map]
  rfl

/-- The type of an object tells of each name whether the object has a member of that name, and the
type of that member. -/
theorem Scanned.tree_record (hs : s.WellFormed) (h : Scanned s m row)
    {p : NameId → Presence} {a : NameId → TypeTree NameId} (htree : s.tree row.type = .record p a)
    (n : NameId) :
    p n = (if (row.member? n).isSome then .required else .lacking) ∧
      a n = s.treeOfCell? (row.member? n) := by
  cases m with
  | object span members =>
    obtain ⟨type, cells, fields, rfl, hmembers, hnd, hget, hperm⟩ := h
    have hnd' : ((Cell.memberFields cells).map (·.name)).Nodup := by
      simpa [Cell.memberFields, Function.comp_def] using hnd
    rw [Cell.type, Schema.tree_record hs hget, Schema.recordTree] at htree
    cases htree
    dsimp only
    rw [← Field.named?_of_perm hnd' hperm, named?_memberFields, Cell.member?, Cell.members]
    cases cells.find? (·.1 = n) <;> exact ⟨rfl, rfl⟩
  | array span items =>
    obtain ⟨type, cells, element, rfl, hitems, hget, -⟩ := h
    rw [Cell.type, Schema.tree_array hs hget] at htree
    cases htree
  | number span numeral =>
    simp only [Scanned] at h
    subst h
    rw [Cell.type] at htree
    cases hi : numeral.isIntegral <;> simp [hi] at htree
  | _ =>
    simp only [Scanned] at h
    subst h
    simp [Cell.type] at htree

/-- What is no object has no members. -/
theorem Scanned.member?_eq_none (hs : s.WellFormed) (h : Scanned s m row)
    (htree : ∀ p a, s.tree row.type ≠ .record p a) (n : NameId) : row.member? n = none := by
  cases m with
  | object span members =>
    obtain ⟨type, cells, fields, rfl, hmembers, hnd, hget, hperm⟩ := h
    exact absurd (Schema.tree_record hs hget) (htree _ _)
  | array span items =>
    obtain ⟨type, cells, element, rfl, -⟩ := h
    rfl
  | _ =>
    simp only [Scanned] at h
    subst h
    rfl

/-- The type of a field of a value's type is that of the member. -/
theorem Scanned.fieldType_eq (hs : s.WellFormed) (h : Scanned s m row) (n : NameId) :
    (s.tree row.type).fieldType n = s.treeOfCell? (row.member? n) := by
  cases htree : s.tree row.type with
  | record p a => exact (h.tree_record hs htree n).2
  | _ =>
    rw [h.member?_eq_none hs (by simp [htree])]
    rfl

/-- The element type of a value's type is the join of the items' types. -/
theorem Scanned.elementType_eq (hs : s.WellFormed) (h : Scanned s m row) :
    (s.tree row.type).elementType.relabel s.nameId? =
      .joinAll (row.elements.map fun c => s.namedTree c.type) := by
  cases m with
  | array span items =>
    obtain ⟨type, cells, element, rfl, hitems, hget, hlub⟩ := h
    rw [Cell.type, Schema.tree_array hs hget]
    exact Schema.namedTree_of_isLUB hlub
  | object span members =>
    obtain ⟨type, cells, fields, rfl, hmembers, hnd, hget, hperm⟩ := h
    rw [Cell.type, Schema.tree_record hs hget]
    rfl
  | number span numeral =>
    simp only [Scanned] at h
    subst h
    rw [Cell.type]
    cases numeral.isIntegral <;> simp <;> rfl
  | _ =>
    simp only [Scanned] at h
    subst h
    simp only [Cell.type, Schema.tree_null, Schema.tree_boolean, Schema.tree_text]
    rfl

/-- The name of a member is known. -/
theorem Scanned.exists_name (h : Scanned s m row) (hmember : (row.member? n).isSome) :
    ∃ name, s.name? n = some name := by
  rw [Cell.member?, Option.isSome_map] at hmember
  obtain ⟨entry, hfind⟩ := Option.isSome_iff_exists.mp hmember
  have hmem := List.mem_of_find?_eq_some hfind
  have hname : entry.1 = n := by simpa using List.find?_some hfind
  cases m with
  | object span members =>
    obtain ⟨type, cells, fields, rfl, hmembers, -⟩ := h
    exact hname ▸ hmembers.exists_name hmem
  | array span items =>
    obtain ⟨type, cells, element, rfl, -⟩ := h
    cases hmem
  | _ =>
    simp only [Scanned] at h
    subst h
    cases hmem

namespace View

variable {root v w : View} {c d : Cell} {cells : List Cell} {fields : List Field}

/-! ## What a view stores -/

/-- The type that covers all rows, over the texts of names. -/
def typeTree (v : View) : TypeTree String := v.schema.namedTree v.type

/-- The row is not there, or is the image of a value that reads from its own span and that the limits
of the view accept. -/
def Stores (v : View) (row : Cell) : Prop :=
  row = .absent ∨ ∃ m, Scanned v.schema m row ∧ Scanner.readTree v.source m.span = .ok m ∧
    m.WellNamed ∧ m.nesting ≤ v.config.limits.maxDepth

/-- What every view of a chain holds: its rows can be scanned again, its type is the least one that
covers them, and there are no more of them than the limits allow. -/
structure Sound (v : View) : Prop where
  wellFormed : v.schema.WellFormed
  least : IsLUB (v.schema.treesOf v.rows.toList) (v.schema.tree v.type)
  stores : ∀ row ∈ v.rows.toList, v.Stores row
  count_le : v.rowCount ≤ Contents.rowLimit v.config.limits

/-- The image of a value that reads from its own span has that span. -/
theorem spanOf?_of_scanned {source : ByteSource} (h : Scanned s m c)
    (hread : Scanner.readTree source m.span = .ok m) : spanOf? c = some m.span := by
  have hpresent : c.isAbsent = false := by
    rw [Cell.isAbsent, h.span_eq]
    exact (readTree_part hread .self).2.1
  rw [spanOf?, hpresent, h.span_eq]
  rfl

/-- A row that is not there is the image of a null. -/
theorem Stores.exists_scanned (h : v.Stores row) : ∃ m, Scanned v.schema m row := by
  rcases h with rfl | ⟨m, hscanned, -⟩
  · exact ⟨.null .empty, rfl⟩
  · exact ⟨m, hscanned⟩

/-- What an accepted pick gives is stored. -/
theorem stores_of_picked {pick : Pick} (hpick : pick.Accepted v.source v.config.limits)
    (h : Picked v.source v.schema pick row) : v.Stores row := by
  unfold Picked at h
  cases hspan : pick.span with
  | none =>
    rw [hspan] at h
    exact .inl h
  | some span =>
    rw [hspan] at h
    obtain ⟨m, hread, hscanned⟩ := h
    obtain ⟨m', hread', haccepted⟩ := hpick span hspan
    cases hread.symm.trans hread'
    exact .inr ⟨m, hscanned, (readTree_part hread .self).1, haccepted⟩

theorem sound_of_gather {picks : List Pick}
    (h : Contents.gather v.source v.config.limits picks = .ok v.contents) : v.Sound := by
  obtain ⟨hg, -⟩ := Contents.gathered_gather h
  obtain ⟨haccepted, hlength⟩ := Contents.exists_gather_eq_ok_iff.mp ⟨_, h⟩
  refine ⟨hg.wellFormed, hg.least, fun row hrow => ?_, ?_⟩
  · obtain ⟨pick, hpick, hpicked⟩ := exists_of_forall₂ hg.images hrow
    exact stores_of_picked (haccepted pick hpick) hpicked
  · rw [rowCount, rows, ← Array.length_toList, ← hg.images.length_eq]
    exact hlength

/-- What is gathered is sound, whatever it is gathered from. -/
theorem sound_of_regather {provenance : Provenance} {picks : List Pick}
    (h : v.regather provenance picks = .ok w) : w.Sound := by
  obtain ⟨contents, hgather, rfl⟩ := regather_eq_ok_iff.mp h
  exact sound_of_gather hgather

/-- Every view of a chain is sound. -/
theorem sound_chain {source : ByteSource} {config : Config} (hroot : load source config = .ok root)
    (h : root.Chain v) : v.Sound := by
  obtain ⟨picks, hgather⟩ := exists_gather hroot h
  exact sound_of_gather hgather

/-! ## Parts that are scanned again -/

/-- A part of a stored row could be stored as well. -/
theorem Stores.part (h : v.Stores row) (hc : c.Part row) : v.Stores c := by
  rcases h with rfl | ⟨m, hscanned, hread, hnamed, hdepth⟩
  · cases hc
    exact .inl rfl
  · obtain ⟨m', hm', hscanned'⟩ := hscanned.part hc
    exact .inr ⟨m', hscanned', (readTree_part hread hm').1, hnamed.part hm',
      Nat.le_trans hm'.nesting_le hdepth⟩

/-- The span of what is stored, if it has one, reads as the value that it is the image of. -/
theorem Stores.exists_read (h : v.Stores c) {span : Span} (hspan : spanOf? c = some span) :
    ∃ m, Scanner.readTree v.source span = .ok m ∧ Scanned v.schema m c ∧ m.WellNamed ∧
      m.nesting ≤ v.config.limits.maxDepth := by
  rcases h with rfl | ⟨m, hscanned, hread, haccepted⟩
  · cases hspan
  · unfold spanOf? at hspan
    split at hspan
    · cases hspan
    · cases hspan
      exact ⟨m, hscanned.span_eq ▸ hread, hscanned, haccepted⟩

/-- The limits accept the span of what is stored. -/
theorem Stores.accepted (h : v.Stores c) (k : Nat) :
    Pick.Accepted v.source v.config.limits ⟨spanOf? c, k⟩ := by
  intro span hspan
  obtain ⟨m, hread, -, haccepted⟩ := h.exists_read hspan
  exact ⟨m, hread, haccepted⟩

/-- **What is scanned again is a counterpart** of what is stored. -/
theorem Stores.counterparts_of_picked (h : v.Stores c) {k : Nat}
    (hd : Picked v.source t ⟨spanOf? c, k⟩ d) : Counterparts v.schema t c d := by
  rcases h with rfl | ⟨m, hscanned, hread, -⟩
  · rw [show d = .absent from hd]
    exact .absent v.schema t
  · unfold Picked at hd
    simp only [spanOf?_of_scanned hscanned hread] at hd
    obtain ⟨m', hread', hscanned'⟩ := hd
    cases hread.symm.trans hread'
    exact ⟨m, hscanned, hscanned'⟩

/-- The picks are those of some cells, all of which are stored. -/
def Regathers (v : View) (picks : List Pick) (cells : List Cell) : Prop :=
  List.Forall₂ (fun pick c => pick.span = spanOf? c ∧ v.Stores c) picks cells

theorem regathers_map {α : Type} {parts : List α} {pick : α → Pick} {cell : α → Cell}
    (h : ∀ part ∈ parts, (pick part).span = spanOf? (cell part) ∧ v.Stores (cell part)) :
    v.Regathers (parts.map pick) (parts.map cell) :=
  List.forall₂_map_left_iff.mpr (List.forall₂_map_right_iff.mpr (List.forall₂_same.mpr h))

/-- Nothing of what is stored is refused. -/
theorem Regathers.accepted {picks : List Pick} (h : v.Regathers picks cells) :
    ∀ pick ∈ picks, pick.Accepted v.source v.config.limits := by
  intro pick hpick span hspan
  obtain ⟨c, -, hc, hstores⟩ := exists_of_forall₂ h.flip hpick
  exact hstores.accepted pick.row span (hc ▸ hspan)

/-- **What is stored can be gathered again**, as far as the limits allow. -/
theorem exists_regather {provenance : Provenance} {picks : List Pick} (h : v.Regathers picks cells)
    (hlength : picks.length ≤ Contents.rowLimit v.config.limits) :
    ∃ w, v.regather provenance picks = .ok w := by
  obtain ⟨contents, hgather⟩ := Contents.exists_gather_eq_ok_iff.mpr ⟨h.accepted, hlength⟩
  exact ⟨_, regather_eq_ok_iff.mpr ⟨contents, hgather, rfl⟩⟩

/-- The second view was gathered from some cells of the first one: its rows are their
counterparts. -/
structure Regathered (v w : View) (provenance : Provenance) (cells : List Cell) : Prop where
  sound : w.Sound
  source_eq : w.source = v.source
  config_eq : w.config = v.config
  provenance_eq : w.provenance = provenance
  counterparts : List.Forall₂ (Counterparts v.schema w.schema) cells w.rows.toList

/-- What is gathered are counterparts of what is stored. -/
theorem Regathers.counterparts {picks : List Pick} {rows : List Cell}
    (h : v.Regathers picks cells) (hrows : List.Forall₂ (Picked v.source t) picks rows) :
    List.Forall₂ (Counterparts v.schema t) cells rows := by
  induction h generalizing rows with
  | nil =>
    cases hrows
    exact .nil
  | @cons pick c picks cells hpick _ ih =>
    cases hrows with
    | cons hrow hrows =>
      refine .cons (hpick.2.counterparts_of_picked (k := pick.row) ?_) (ih hrows)
      rw [← hpick.1]
      exact hrow

theorem Regathers.regathered {provenance : Provenance} {picks : List Pick}
    (h : v.Regathers picks cells) (hw : v.regather provenance picks = .ok w) :
    Regathered v w provenance cells := by
  have hsound := sound_of_regather hw
  obtain ⟨contents, hgather, rfl⟩ := regather_eq_ok_iff.mp hw
  obtain ⟨hg, -⟩ := Contents.gathered_gather hgather
  exact ⟨hsound, rfl, rfl, rfl, h.counterparts hg.images⟩

/-- The type of what is gathered is the join of the types of the cells. -/
theorem Regathered.typeTree_eq {provenance : Provenance} (hv : v.Sound)
    (h : Regathered v w provenance cells) :
    w.typeTree = .joinAll (cells.map fun c => v.schema.namedTree c.type) := by
  have hrows : cells.map (fun c => v.schema.namedTree c.type) =
      w.rows.toList.map fun c => w.schema.namedTree c.type :=
    map_eq_map_of_forall₂ h.counterparts fun c d hc =>
      (hc.namedTree_eq hv.wellFormed h.sound.wellFormed).symm
  rw [hrows]
  exact Schema.namedTree_of_isLUB h.sound.least

/-! ## Columns and items -/

theorem map_fst_numberedRows (v : View) : v.numberedRows.map (·.1) = v.rows.toList := by
  rw [numberedRows, List.map_map]
  exact List.zipIdx_map_fst 0 v.rows.toList

theorem Sound.stores_of_numbered (hv : v.Sound) {r : Cell × Nat} (hr : r ∈ v.numberedRows) :
    v.Stores r.1 :=
  hv.stores r.1 (map_fst_numberedRows v ▸ List.mem_map_of_mem hr)

/-- What is not there has no span, like the absent value. -/
theorem bind_spanOf? (c? : Option Cell) : c?.bind spanOf? = spanOf? (c?.getD .absent) := by
  cases c? with
  | none => rfl
  | some c => rfl

theorem Sound.regathers_members (hv : v.Sound) (n : NameId) :
    v.Regathers (v.numberedRows.map fun r => ⟨(r.1.member? n).bind spanOf?, r.2⟩)
      (v.rows.toList.map fun row => (row.member? n).getD .absent) := by
  rw [← map_fst_numberedRows, List.map_map]
  refine regathers_map fun r hr => ⟨bind_spanOf? _, ?_⟩
  show v.Stores ((r.1.member? n).getD .absent)
  cases hmember : r.1.member? n with
  | none => exact .inl rfl
  | some c => exact (hv.stores_of_numbered hr).part (Cell.part_of_member? hmember)

/-- **A projection succeeds.** -/
theorem exists_column (hv : v.Sound) (n : NameId) (name : String) :
    ∃ w, v.column n name = .ok w := by
  refine exists_regather (hv.regathers_members n) ?_
  rw [List.length_map, ← List.length_map (·.1), map_fst_numberedRows, Array.length_toList]
  exact hv.count_le

theorem regathered_column (hv : v.Sound) {name : String} (h : v.column n name = .ok w) :
    Regathered v w (v.provenance.withField name)
      (v.rows.toList.map fun row => (row.member? n).getD .absent) :=
  (hv.regathers_members n).regathered h

/-- The type of a column is the join of the members' types. -/
theorem typeTree_column (hv : v.Sound) {name : String} (h : v.column n name = .ok w) :
    w.typeTree = .joinAll (v.rows.toList.map fun row =>
      (v.schema.treeOfCell? (row.member? n)).relabel v.schema.nameId?) := by
  rw [(regathered_column hv h).typeTree_eq hv, List.map_map]
  refine congrArg _ (List.map_congr_left fun row _ => ?_)
  rw [Function.comp_apply]
  cases row.member? n with
  | none => simp [Cell.absent, Cell.type, Schema.treeOfCell?, TypeTree.relabel]
  | some c => rfl

theorem Stores.regathers_items (h : v.Stores row) (k : Nat) :
    v.Regathers (row.elements.map fun item => ⟨spanOf? item, k⟩) row.elements := by
  have hitems : v.Regathers (row.elements.map fun item => ⟨spanOf? item, k⟩)
      (row.elements.map id) :=
    regathers_map fun item hitem => ⟨rfl, h.part (Cell.part_of_mem_elements hitem)⟩
  rwa [List.map_id] at hitems

/-- The type of the items of a row is the join of their types. -/
theorem typeTree_itemsOf (hv : v.Sound) (hrow : v.Stores row) {k : Nat}
    (h : v.itemsOf row k = .ok w) :
    w.typeTree = .joinAll (row.elements.map fun c => v.schema.namedTree c.type) :=
  ((hrow.regathers_items k).regathered h).typeTree_eq hv

/-! ## The type of a record dataset -/

theorem Sound.joinAll_of_fields? (hv : v.Sound) (hfields : v.fields? = some fields) :
    .joinAll (v.rows.toList.map fun row => v.schema.tree row.type) = v.schema.recordTree fields := by
  rw [← Schema.tree_of_isLUB hv.least, Schema.tree_record hv.wellFormed
    (Schema.fields?_eq_some_iff.mp hfields)]

theorem Sound.named?_of_mem (hv : v.Sound) (hfields : v.fields? = some fields) {f : Field}
    (hf : f ∈ fields) : Field.named? fields f.name = some f :=
  (Field.named?_eq_some_iff
    (hv.wellFormed.names_nodup (Schema.fields?_eq_some_iff.mp hfields))).mpr ⟨hf, rfl⟩

theorem Sound.presence_ne_lacking (hv : v.Sound) (hfields : v.fields? = some fields) {f : Field}
    (hf : f ∈ fields) : Presence.ofField? (Field.named? fields f.name) ≠ .lacking := by
  rw [hv.named?_of_mem hfields hf]
  exact Presence.ofField?_ne_lacking f

/-- **The type of a field** is the join of the types of the members of that name. -/
theorem namedTree_field (hv : v.Sound) (hfields : v.fields? = some fields) {f : Field}
    (hf : f ∈ fields) : v.schema.namedTree f.type = .joinAll (v.rows.toList.map fun row =>
      (v.schema.treeOfCell? (row.member? f.name)).relabel v.schema.nameId?) := by
  have htype := TypeTree.fieldType_joinAll (hv.joinAll_of_fields? hfields) f.name
  rw [hv.named?_of_mem hfields hf] at htype
  rw [Schema.namedTree, show v.schema.tree f.type = _ from htype, TypeTree.relabel_joinAll,
    List.map_map, List.map_map]
  refine congrArg _ (List.map_congr_left fun row hrow => ?_)
  obtain ⟨m, hscanned⟩ := (hv.stores row hrow).exists_scanned
  simp only [Function.comp_apply, hscanned.fieldType_eq hv.wellFormed]

/-- A row of a record type is null or has a record type itself, which tells what members it has. -/
theorem Sound.tree_row (hv : v.Sound) (hfields : v.fields? = some fields)
    (hrow : row ∈ v.rows.toList) : row.isNull = true ∧ v.schema.tree row.type = .null ∨
      row.isNull = false ∧ ∃ p a, v.schema.tree row.type = .record p a ∧
        ∀ n, p n = if (row.member? n).isSome then .required else .lacking := by
  obtain ⟨m, hscanned⟩ := (hv.stores row hrow).exists_scanned
  have hnull := (Schema.tree_eq_primitive_iff hv.wellFormed hscanned.knows).1
  have hle : v.schema.tree row.type ≤ v.schema.recordTree fields :=
    hv.joinAll_of_fields? hfields ▸ TypeTree.le_joinAll (List.mem_map_of_mem hrow)
  rcases TypeTree.le_record_iff.mp hle with htree | ⟨p, a, htree, -⟩
  · exact .inl ⟨decide_eq_true (hnull.mp htree), htree⟩
  · refine .inr ⟨decide_eq_false fun htype => ?_, p, a, htree,
      fun n => (hscanned.tree_record hv.wellFormed htree n).1⟩
    rw [hnull.mpr htype] at htree
    cases htree

/-- **A field is optional when a row that is not null lacks it.** -/
theorem optional_iff (hv : v.Sound) (hfields : v.fields? = some fields) {f : Field}
    (hf : f ∈ fields) : f.optional = true ↔
      ∃ row ∈ v.rows, row.isNull = false ∧ row.member? f.name = none := by
  have hjoin := hv.joinAll_of_fields? hfields
  have hoptional := TypeTree.optional_iff_of_joinAll hjoin
      (hv.presence_ne_lacking hfields hf) fun q b hq => by
    obtain ⟨row, hrow, htree⟩ := List.mem_map.mp hq
    rcases hv.tree_row hfields hrow with ⟨-, hnull⟩ | ⟨-, p, a, hrecord, hp⟩
    · cases hnull.symm.trans htree
    · cases hrecord.symm.trans htree
      rw [hp]
      split <;> simp
  rw [hv.named?_of_mem hfields hf, Presence.ofField?_eq_optional_iff] at hoptional
  rw [hoptional]
  constructor
  · rintro ⟨q, b, hq, hlacking⟩
    obtain ⟨row, hrow, htree⟩ := List.mem_map.mp hq
    rcases hv.tree_row hfields hrow with ⟨-, hnull⟩ | ⟨hpresent, p, a, hrecord, hp⟩
    · cases hnull.symm.trans htree
    · cases hrecord.symm.trans htree
      refine ⟨row, Array.mem_toList_iff.mp hrow, hpresent, ?_⟩
      rw [hp] at hlacking
      simpa using hlacking
  · rintro ⟨row, hrow, hpresent, hmember⟩
    rw [← Array.mem_toList_iff] at hrow
    rcases hv.tree_row hfields hrow with ⟨hnull, -⟩ | ⟨-, p, a, hrecord, hp⟩
    · cases hpresent.symm.trans hnull
    · refine ⟨p, a, hrecord ▸ List.mem_map_of_mem hrow, ?_⟩
      rw [hp, hmember]
      rfl

/-- The names of fields are known: some row has a member of that name. -/
theorem exists_fieldName (hv : v.Sound) (hfields : v.fields? = some fields) {f : Field}
    (hf : f ∈ fields) : ∃ name, v.schema.name? f.name = some name := by
  obtain ⟨q, b, hq, hpresent⟩ := TypeTree.exists_present_of_joinAll
    (hv.joinAll_of_fields? hfields) (hv.presence_ne_lacking hfields hf)
  obtain ⟨row, hrow, htree⟩ := List.mem_map.mp hq
  obtain ⟨m, hscanned⟩ := (hv.stores row hrow).exists_scanned
  rw [(hscanned.tree_record hv.wellFormed htree f.name).1] at hpresent
  refine hscanned.exists_name (n := f.name) ?_
  by_contra hnone
  rw [if_neg hnone] at hpresent
  exact hpresent rfl

/-! ## Views and the type that they come from -/

/-- A column of a record dataset: however it is asked for, its type is that of the field. -/
structure ColumnAgrees (v : View) (k : Nat) (f : Field) (name : String) (w : View) : Prop where
  name_eq : v.schema.name? f.name = some name
  field_eq : v.field? name = .ok (some w)
  subscript_eq : v.subscript (k + 1) = .ok w
  type_eq : w.typeTree = v.schema.namedTree f.type

/-- The types of the views of a view agree with the type of the view, as trees over the texts of
names. -/
structure TypesAgree (v : View) : Prop where
  /-- A record dataset has a column for each field, of the type of that field. -/
  columns : ∀ fields, v.fields? = some fields → ∃ views, v.columns = .ok views ∧
    views.length = fields.length ∧ ∀ k f, fields[k]? = some f →
      ∃ name w, views[k]? = some (name, w) ∧ v.ColumnAgrees k f name w
  /-- A field is optional when a row that is not null lacks it. -/
  optional_iff : ∀ fields, v.fields? = some fields → ∀ f ∈ fields, (f.optional = true ↔
    ∃ row ∈ v.rows, row.isNull = false ∧ row.member? f.name = none)
  /-- The types of the items of each row join to the element type. -/
  elements : ∀ element views, v.schema.element? v.type = some element → v.elements = .ok views →
    TypeTree.joinAll (views.map typeTree) = v.schema.namedTree element

theorem exists_columns (hv : v.Sound) (fields : List Field) :
    ∃ views, v.columnsOf fields = .ok views := by
  induction fields with
  | nil => exact ⟨[], rfl⟩
  | cons f fields ih =>
    obtain ⟨views, hviews⟩ := ih
    obtain ⟨w, hw⟩ := exists_column hv f.name (v.schema.name f.name)
    exact ⟨(v.schema.name f.name, w) :: views, by simp only [columnsOf, hw, hviews]⟩

theorem columnAgrees (hv : v.Sound) (hfields : v.fields? = some fields) {k : Nat} {f : Field}
    (hk : fields[k]? = some f) (hw : v.column f.name (v.schema.name f.name) = .ok w) :
    v.ColumnAgrees k f (v.schema.name f.name) w := by
  have hf := List.mem_of_getElem? hk
  obtain ⟨name, hname⟩ := exists_fieldName hv hfields hf
  have htext : v.schema.name f.name = name := by rw [Schema.name, hname]; rfl
  have hid := Schema.nameId?_eq_some_iff.mpr hname
  refine ⟨htext ▸ hname, ?_, ?_, ?_⟩
  · rw [field?, htext, hid]
    rw [htext] at hw
    simp only [hw]
  · rw [subscript, hfields]
    simp only [Nat.add_one_ne_zero, if_false, Nat.add_sub_cancel, hk, hw]
  · rw [typeTree_column hv hw, namedTree_field hv hfields hf]

theorem columns_agree (hv : v.Sound) (hfields : v.fields? = some fields) :
    ∃ views, v.columns = .ok views ∧ views.length = fields.length ∧
      ∀ k f, fields[k]? = some f →
        ∃ name w, views[k]? = some (name, w) ∧ v.ColumnAgrees k f name w := by
  obtain ⟨views, hviews⟩ := exists_columns hv fields
  have hall := columnsOf_eq_ok_iff.mp hviews
  refine ⟨views, by rw [columns, hfields]; exact hviews, hall.length_eq.symm, fun k f hk => ?_⟩
  obtain ⟨hlt, rfl⟩ := List.getElem?_eq_some_iff.mp hk
  have hlt' : k < views.length := hall.length_eq ▸ hlt
  obtain ⟨hname, hcolumn⟩ := namedColumn_eq_ok_iff.mp (hall.get hlt hlt')
  refine ⟨v.schema.name fields[k].name, views[k].2, ?_, columnAgrees hv hfields hk hcolumn⟩
  rw [List.getElem?_eq_getElem hlt']
  exact congrArg some (Prod.ext hname.symm rfl)

/-- **The element type** is the join of the items' types of all rows. -/
theorem namedTree_element (hv : v.Sound) (helement : v.schema.element? v.type = some element) :
    v.schema.namedTree element = .joinAll (v.rows.toList.map fun row =>
      .joinAll (row.elements.map fun c => v.schema.namedTree c.type)) := by
  have htree : TypeTree.joinAll (v.rows.toList.map fun row => v.schema.tree row.type) =
      .array (v.schema.tree element) := by
    rw [← Schema.tree_of_isLUB hv.least, Schema.tree_array hv.wellFormed
      (Schema.element?_eq_some_iff.mp helement)]
  rw [Schema.namedTree, TypeTree.elementType_joinAll htree, TypeTree.relabel_joinAll,
    List.map_map, List.map_map]
  refine congrArg _ (List.map_congr_left fun row hrow => ?_)
  obtain ⟨m, hscanned⟩ := (hv.stores row hrow).exists_scanned
  exact hscanned.elementType_eq hv.wellFormed

theorem elements_agree (hv : v.Sound) {views : List View}
    (helement : v.schema.element? v.type = some element) (hviews : v.elements = .ok views) :
    TypeTree.joinAll (views.map typeTree) = v.schema.namedTree element := by
  have htypes : List.Forall₂ (fun r w => typeTree w =
      .joinAll (r.1.elements.map fun c => v.schema.namedTree c.type)) v.numberedRows views :=
    ((List.forall₂_and_left _ _).mpr ⟨fun _ hr => hr, elementsOf_eq_ok_iff.mp hviews⟩).imp
      fun r w ⟨hr, hitems⟩ => typeTree_itemsOf hv (hv.stores_of_numbered hr) hitems
  rw [namedTree_element hv helement, ← map_fst_numberedRows, List.map_map]
  exact congrArg _ (map_eq_map_of_forall₂ htypes fun r w hw => hw.symm).symm

/-- **The types of views agree with the type that they come from**, over every chain of views. -/
theorem types_agree {source : ByteSource} {config : Config} (hroot : load source config = .ok root)
    (h : root.Chain v) : v.TypesAgree where
  columns _ hfields := columns_agree (sound_chain hroot h) hfields
  optional_iff _ hfields _ hf := optional_iff (sound_chain hroot h) hfields hf
  elements _ _ helement hviews := elements_agree (sound_chain hroot h) helement hviews

/-- Three records, one of which has a null where the others have objects. -/
def partialRecords : ByteSource :=
  .ofString "\x7b\"p\":\x7b\"a\":1\x7d\x7d\n\x7b\"p\":null\x7d\n\x7b\"p\":\x7b\"a\":[0.5],\"b\":2\x7d\x7d\n"

/-- The projection on the objects, which all have the first field and not all the second. -/
theorem types_agree_partialRecords : ∃ root v, load partialRecords {} = .ok root ∧
    root.Chain v ∧ v.fields?.map (·.map Field.optional) = some [false, true] ∧ v.TypesAgree := by
  have hrun : ((load partialRecords {}).toOption.bind fun root =>
      (root.field? "p").toOption.bind fun field =>
        field.bind fun v => v.fields?.map (·.map Field.optional)) = some [false, true] := by
    decide +kernel
  obtain ⟨root, hload, hrun⟩ := Option.bind_eq_some_iff.mp hrun
  obtain ⟨field, hfield, hrun⟩ := Option.bind_eq_some_iff.mp hrun
  obtain ⟨v, rfl, hflags⟩ := Option.bind_eq_some_iff.mp hrun
  have hroot := eq_ok_of_toOption hload
  have hchain : root.Chain v := .single (.field (eq_ok_of_toOption hfield))
  exact ⟨root, v, hroot, hchain, hflags, types_agree hroot hchain⟩

end View

end JsonLines
