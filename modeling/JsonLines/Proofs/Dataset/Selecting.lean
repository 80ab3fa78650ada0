/-
JsonLines.Proofs.Dataset.Selecting — how the selection of rows goes with the other operations.

A selection gathers the spans of the rows, so its rows are counterparts of the selected ones, in a
schema of its own (`counterparts_select`). Whatever is gathered from it is gathered from the same
spans and the same row numbers as from the view itself. Gathering depends on nothing else, so the
results are equal in all they hold, numbers of types and of names included: that is why the laws of
`SelectionLaws` are equations.

The one thing that is lost is names. A schema knows the names in the values that were scanned into
it and no others (`Regathers.mem_names`), so a field of a selection is a field of the view,
but not the other way round.
-/
import JsonLines.Proofs.Dataset.Failures

namespace JsonLines

/-! ## What counterparts have in common -/

section

variable {s t : Schema} {c d : Cell} {c? d? : Option Cell}

theorem Counterparts.spanOf?_eq (h : Counterparts s t c d) :
    View.spanOf? d = View.spanOf? c := by
  rw [View.spanOf?, View.spanOf?, Cell.isAbsent, Cell.isAbsent, h.span_eq]

theorem spanOf?_of_rel (h : Option.Rel (Counterparts s t) c? d?) :
    d?.bind View.spanOf? = c?.bind View.spanOf? := by
  cases h with
  | none => rfl
  | some h => exact h.spanOf?_eq

end

namespace View

variable {root v w x y z : View} {provenance : Provenance} {picks : List Pick} {cells : List Cell}
  {c : Cell} {indices positions : List Nat} {name : String} {n : NameId} {i k : Nat}

/-- What is read from the span of a stored cell is what the cell is the image of. -/
theorem Stores.scanned (h : v.Stores c) {span : Span} {node : Json.Node}
    (hspan : spanOf? c = some span) (hread : Scanner.readTree v.source span = .ok node) :
    Scanned v.schema node c := by
  obtain ⟨m, hread', hscanned, -⟩ := h.exists_read hspan
  cases hread.symm.trans hread'
  exact hscanned

/-- The names of a view that is gathered from another are names of that. -/
theorem Regathers.mem_names (h : v.Regathers picks cells)
    (hw : v.regather provenance picks = .ok w) (hname : name ∈ w.schema.names) :
    name ∈ v.schema.names := by
  obtain ⟨contents, hgather, rfl⟩ := regather_eq_ok_iff.mp hw
  have hgrows : Schema.empty.Grows (· ∈ v.schema.names) contents.schema := by
    refine Contents.grows_gather ?_ hgather
    intro pick hpick span hspan node hread text htext
    obtain ⟨c, -, hc, hstores⟩ := exists_of_forall₂ h.flip hpick
    exact (hstores.scanned (hc ▸ hspan) hread).mem_names htext
  exact hgrows.namesWithin Schema.namesWithin_empty name hname

/-! ## Rows and their numbers -/

theorem Regathered.rowCount_eq (h : Regathered v w provenance cells) :
    w.rowCount = cells.length := by
  rw [rowCount, ← Array.length_toList, h.counterparts.length_eq]

/-- Gathering depends on the source and the settings alone. -/
theorem Regathered.regather_eq {provenance' : Provenance} (h : Regathered v w provenance cells) :
    w.regather provenance' picks = v.regather provenance' picks := by
  simp only [regather, h.source_eq, h.config_eq]

theorem getElem?_rows (hi : v.HasRow i) : v.rows[i - 1]? = some (v.rowAt i) := by
  have hlt : i - 1 < v.rows.size := by
    obtain ⟨hpos, hle⟩ := hi
    rw [rowCount] at hle
    omega
  rw [rowAt, Array.getElem?_eq_getElem hlt]
  rfl

theorem getElem?_numberedRows (hi : v.HasRow i) :
    v.numberedRows[i - 1]? = some (v.rowAt i, v.rowNumber (i - 1)) := by
  rw [numberedRows, List.getElem?_map, List.getElem?_zipIdx, Array.getElem?_toList,
    getElem?_rows hi]
  simp

theorem length_numberedRows (v : View) : v.numberedRows.length = v.rowCount := by
  rw [← List.length_map (·.1), map_fst_numberedRows, Array.length_toList, rowCount]

theorem Regathered.counterparts_rowAt (h : Regathered v w provenance cells)
    (hk : cells[k]? = some c) : Counterparts v.schema w.schema c (w.rowAt (k + 1)) := by
  obtain ⟨hlt, rfl⟩ := List.getElem?_eq_some_iff.mp hk
  have hlt' : k < w.rows.toList.length := h.counterparts.length_eq ▸ hlt
  have hasRow : w.HasRow (k + 1) := by
    refine ⟨Nat.le_add_left 1 k, ?_⟩
    rw [rowCount, ← Array.length_toList]
    exact hlt'
  have hrow := getElem?_rows hasRow
  rw [Nat.add_sub_cancel, ← Array.getElem?_toList, List.getElem?_eq_getElem hlt'] at hrow
  rw [← Option.some.inj hrow]
  exact h.counterparts.get hlt hlt'

/-! ## Selections -/

section

variable (hv : v.Sound) (h : v.select indices = .ok w)

include hv h

theorem regathered_select : Regathered v w (v.selected indices) (indices.map v.rowAt) :=
  (hv.regathers_rows indices).regathered (select_eq_ok_iff.mp h).2

theorem rowCount_select : w.rowCount = indices.length := by
  rw [(regathered_select hv h).rowCount_eq, List.length_map]

/-- **The rows of a selection** are counterparts of those that were selected, and have their
numbers. -/
theorem counterparts_select (hk : indices[k]? = some i) :
    Counterparts v.schema w.schema (v.rowAt i) (w.rowAt (k + 1)) := by
  refine (regathered_select hv h).counterparts_rowAt ?_
  rw [List.getElem?_map, hk]
  rfl

theorem rowNumber_select (hk : indices[k]? = some i) : w.rowNumber k = v.rowNumber (i - 1) := by
  rw [rowNumber, (regathered_select hv h).provenance_eq]
  simp [selected, Provenance.withRows, Provenance.rowNumber, hk, rowNumber]

/-- What is picked for a row of a selection is what is picked for the selected one. -/
theorem rowPick_select (hk : indices[k]? = some i) : w.rowPick (k + 1) = v.rowPick i := by
  rw [rowPick_eq, rowPick_eq, (counterparts_select hv h hk).spanOf?_eq, Nat.add_sub_cancel,
    rowNumber_select hv h hk]

theorem hasRow_select (hk : indices[k]? = some i) : w.HasRow (k + 1) := by
  obtain ⟨hlt, -⟩ := List.getElem?_eq_some_iff.mp hk
  refine ⟨Nat.le_add_left 1 k, ?_⟩
  rw [rowCount_select hv h]
  exact hlt

/-- What is made of the rows of a selection is made of the selected rows. -/
theorem map_numberedRows_select {α : Type} {f : Cell × Nat → α} {g : Nat → α}
    (hfg : ∀ k i, indices[k]? = some i → f (w.rowAt (k + 1), w.rowNumber k) = g i) :
    w.numberedRows.map f = indices.map g := by
  refine List.ext_getElem? fun k => ?_
  rw [List.getElem?_map, List.getElem?_map]
  cases hk : indices[k]? with
  | none =>
    have hnone : w.numberedRows[k]? = none := by
      rw [List.getElem?_eq_none_iff, length_numberedRows, rowCount_select hv h]
      exact List.getElem?_eq_none_iff.mp hk
    rw [hnone]
    rfl
  | some i =>
    have hsome := getElem?_numberedRows (hasRow_select hv h hk)
    rw [Nat.add_sub_cancel] at hsome
    rw [hsome]
    exact congrArg some (hfg k i hk)

end

/-! ## Laws of selections -/

/-- The numbers that some positions of a list of row numbers stand for; positions count from one. -/
def composed (indices positions : List Nat) : List Nat :=
  positions.map fun j => indices.getD (j - 1) 0

/-- **Selecting from a selection** is selecting. -/
theorem select_select (hv : v.Sound) (h : v.select indices = .ok w)
    (hz : w.select positions = .ok z) : v.select (composed indices positions) = .ok z := by
  obtain ⟨hpositions, hgather⟩ := select_eq_ok_iff.mp hz
  have hget : ∀ j ∈ positions, indices[j - 1]? = some (indices.getD (j - 1) 0) := by
    intro j hj
    obtain ⟨hpos, hle⟩ := hpositions j hj
    rw [rowCount_select hv h] at hle
    have hlt : j - 1 < indices.length := by omega
    rw [List.getD_eq_getElem?_getD, List.getElem?_eq_getElem hlt]
    rfl
  have hpicks : positions.map w.rowPick = (composed indices positions).map v.rowPick := by
    rw [composed, List.map_map]
    refine List.map_congr_left fun j hj => ?_
    have hpick := rowPick_select hv h (hget j hj)
    rwa [Nat.sub_add_cancel (hpositions j hj).1] at hpick
  have hprovenance : w.selected positions = v.selected (composed indices positions) := by
    unfold selected
    rw [(regathered_select hv h).provenance_eq, composed, List.map_map]
    refine congrArg (fun rows : List Nat => v.provenance.withRows rows.toArray) ?_
    exact List.map_congr_left fun j hj => rowNumber_select hv h (hget j hj)
  refine select_eq_ok_iff.mpr ⟨?_, ?_⟩
  · intro i hi
    obtain ⟨j, hj, rfl⟩ := List.mem_map.mp hi
    exact (select_eq_ok_iff.mp h).1 _ (List.mem_of_getElem? (hget j hj))
  · rw [← hpicks, ← hprovenance, ← (regathered_select hv h).regather_eq]
    exact hgather

theorem field?_eq_ok_some_iff : v.field? name = .ok (some x) ↔
    ∃ n, v.schema.nameId? name = some n ∧ v.column n name = .ok x := by
  unfold field?
  cases v.schema.nameId? name with
  | none => simp
  | some n => cases hcolumn : v.column n name <;> simp [hcolumn]

theorem field?_eq_ok_none_iff (hv : v.Sound) :
    v.field? name = .ok none ↔ v.schema.nameId? name = none := by
  unfold field?
  cases v.schema.nameId? name with
  | none => simp
  | some n =>
    obtain ⟨w, hw⟩ := exists_column hv n name
    simp [hw]

section

variable (hv : v.Sound) (hy : v.column n name = .ok y)

include hv hy

theorem rowCount_column : y.rowCount = v.rowCount := by
  rw [(regathered_column hv hy).rowCount_eq, List.length_map, Array.length_toList, rowCount]

theorem hasRow_column (hi : v.HasRow i) : y.HasRow i := by
  unfold HasRow
  rw [rowCount_column hv hy]
  exact hi

/-- The rows of a column are counterparts of the members of the rows. -/
theorem counterparts_column (hi : v.HasRow i) : Counterparts v.schema y.schema
    (((v.rowAt i).member? n).getD .absent) (y.rowAt i) := by
  have hcell : (v.rows.toList.map fun row => (row.member? n).getD .absent)[i - 1]? =
      some (((v.rowAt i).member? n).getD .absent) := by
    rw [List.getElem?_map, Array.getElem?_toList, getElem?_rows hi]
    rfl
  have hrow := (regathered_column hv hy).counterparts_rowAt hcell
  rwa [Nat.sub_add_cancel hi.1] at hrow

/-- What is picked for a row of a column is what is picked for the member of the row. -/
theorem rowPick_column (hi : v.HasRow i) :
    y.rowPick i = ⟨((v.rowAt i).member? n).bind spanOf?, v.rowNumber (i - 1)⟩ := by
  rw [rowPick_eq, bind_spanOf?, (counterparts_column hv hy hi).spanOf?_eq, rowNumber,
    (regathered_column hv hy).provenance_eq]
  rfl

end

/-- A selection that was made of a view can be made of a column, and gathers the members. -/
theorem select_column_iff (hv : v.Sound) (h : v.select indices = .ok w)
    (hy : v.column n name = .ok y) : y.select indices = .ok z ↔
      v.regather ((v.selected indices).withField name) (indices.map fun i =>
        ⟨((v.rowAt i).member? n).bind spanOf?, v.rowNumber (i - 1)⟩) = .ok z := by
  have hrows := (select_eq_ok_iff.mp h).1
  have hasRow : ∀ i ∈ indices, y.HasRow i := fun i hi => hasRow_column hv hy (hrows i hi)
  have hpicks : indices.map y.rowPick = indices.map fun i =>
      ⟨((v.rowAt i).member? n).bind spanOf?, v.rowNumber (i - 1)⟩ :=
    List.map_congr_left fun i hi => rowPick_column hv hy (hrows i hi)
  have hprovenance : y.selected indices = (v.selected indices).withField name := by
    unfold selected rowNumber
    rw [(regathered_column hv hy).provenance_eq]
    rfl
  rw [select_of_hasRow hasRow, hpicks, hprovenance, (regathered_column hv hy).regather_eq]

/-- A column of a selection gathers the members of the selected rows. -/
theorem column_select {n' : NameId} (hv : v.Sound) (h : v.select indices = .ok w)
    (hn : v.schema.name? n = some name) (hn' : w.schema.name? n' = some name) :
    w.column n' name = v.regather ((v.selected indices).withField name) (indices.map fun i =>
      ⟨((v.rowAt i).member? n).bind spanOf?, v.rowNumber (i - 1)⟩) := by
  have hw := regathered_select hv h
  unfold column
  rw [hw.regather_eq, hw.provenance_eq]
  refine congrArg _ (map_numberedRows_select hv h fun k i hk => ?_)
  have hmember := (counterparts_select hv h hk).member? hn hn'
  exact congrArg₂ Pick.mk (spanOf?_of_rel hmember) (rowNumber_select hv h hk)

/-- **Projecting a selection** selects rows of the projection. -/
theorem field_select (hv : v.Sound) (h : v.select indices = .ok w)
    (hx : w.field? name = .ok (some x)) :
    ∃ y, v.field? name = .ok (some y) ∧ y.select indices = .ok x := by
  obtain ⟨n', hn', hcolumn⟩ := field?_eq_ok_some_iff.mp hx
  have hwf := (regathered_select hv h).sound.wellFormed
  have hname' := Schema.nameId?_eq_some_iff.mp hn'
  have hmem : name ∈ v.schema.names := (hv.regathers_rows indices).mem_names
    (select_eq_ok_iff.mp h).2 (Schema.mem_names_iff.mpr ⟨n', hname'⟩)
  obtain ⟨n, hname⟩ := Schema.mem_names_iff.mp hmem
  obtain ⟨y, hy⟩ := exists_column hv n name
  have hn := Schema.nameId?_eq_some_iff.mpr hname
  refine ⟨y, field?_eq_ok_some_iff.mpr ⟨n, hn, hy⟩, ?_⟩
  rw [select_column_iff hv h hy, ← column_select hv h hname hname']
  exact hcolumn

/-- What can be selected of a view can be selected of a column. -/
theorem exists_select_column (hv : v.Sound) (h : v.select indices = .ok w)
    (hy : v.column n name = .ok y) : ∃ z, y.select indices = .ok z := by
  have hw := regathered_select hv h
  have hcolumn := regathered_column hv hy
  have hlength : indices.length ≤ y.rowLimit := by
    have hcount := hw.sound.count_le
    rw [hw.config_eq, rowCount_select hv h] at hcount
    rw [rowLimit, hcolumn.config_eq]
    exact hcount
  refine exists_select hcolumn.sound ?_ hlength
  intro i hi
  exact hasRow_column hv hy ((select_eq_ok_iff.mp h).1 i hi)

/-- Of a name that a selection does not know the selected rows have no members. -/
theorem absent_of_unknown (hv : v.Sound) (h : v.select indices = .ok w)
    (hname : v.schema.name? n = some name) (hunknown : name ∉ w.schema.names)
    (hy : v.column n name = .ok y) (hz : y.select indices = .ok z) :
    ∀ row ∈ z.rows, row = .absent := by
  intro row hrow
  obtain ⟨cell, hcell, hcounterparts⟩ := exists_of_forall₂
    (regathered_select (regathered_column hv hy).sound hz).counterparts
    (Array.mem_toList_iff.mpr hrow)
  obtain ⟨i, hi, rfl⟩ := List.mem_map.mp hcell
  obtain ⟨k, hk⟩ := List.mem_iff_getElem?.mp hi
  have hmember : (v.rowAt i).member? n = none :=
    (counterparts_select hv h hk).member?_eq_none hname hunknown
  have hcolumn := counterparts_column hv hy ((select_eq_ok_iff.mp h).1 i hi)
  rw [hmember, Option.getD_none] at hcolumn
  rw [hcolumn.eq_absent] at hcounterparts
  exact hcounterparts.eq_absent

/-- **A field that a selection lacks** is absent from the selected rows. -/
theorem absent_of_lacking (hv : v.Sound) (h : v.select indices = .ok w)
    (hlacking : w.field? name = .ok none) : v.field? name = .ok none ∨
      ∃ y z, v.field? name = .ok (some y) ∧ y.select indices = .ok z ∧
        ∀ row ∈ z.rows, row = .absent := by
  have hunknown : name ∉ w.schema.names := by
    intro hmem
    obtain ⟨n, hn⟩ := Schema.mem_names_iff.mp hmem
    rw [field?_eq_ok_none_iff (sound_of_select h)] at hlacking
    exact Schema.nameId?_eq_none hlacking n hn
  cases hn : v.schema.nameId? name with
  | none => exact .inl ((field?_eq_ok_none_iff hv).mpr hn)
  | some n =>
    have hname := Schema.nameId?_eq_some_iff.mp hn
    obtain ⟨y, hy⟩ := exists_column hv n name
    obtain ⟨z, hz⟩ := exists_select_column hv h hy
    exact .inr ⟨y, z, field?_eq_ok_some_iff.mpr ⟨n, hn, hy⟩, hz,
      absent_of_unknown hv h hname hunknown hy hz⟩

/-- The items of a row of a selection are those of the selected row. -/
theorem itemsOf_select (hv : v.Sound) (h : v.select indices = .ok w) (hk : indices[k]? = some i) :
    w.itemsOf (w.rowAt (k + 1)) (w.rowNumber k) = v.itemsOf (v.rowAt i) (v.rowNumber (i - 1)) := by
  have hw := regathered_select hv h
  have helements := (counterparts_select hv h hk).elements
  have hpicks : ((w.rowAt (k + 1)).elements.map fun item =>
        (⟨spanOf? item, v.rowNumber (i - 1)⟩ : Pick)) =
      (v.rowAt i).elements.map fun item => ⟨spanOf? item, v.rowNumber (i - 1)⟩ :=
    (map_eq_map_of_forall₂ helements fun c d hc => by rw [hc.spanOf?_eq]).symm
  unfold itemsOf
  rw [rowNumber_select hv h hk, ← helements.length_eq, hpicks, hw.regather_eq, hw.provenance_eq]
  rfl

theorem elements_row {views : List View} (hviews : v.elements = .ok views) (hi : v.HasRow i) :
    ∃ u, views[i - 1]? = some u ∧ v.itemsOf (v.rowAt i) (v.rowNumber (i - 1)) = .ok u := by
  have hall := elementsOf_eq_ok_iff.mp hviews
  obtain ⟨hlt, hrow⟩ := List.getElem?_eq_some_iff.mp (getElem?_numberedRows hi)
  have hlt' : i - 1 < views.length := hall.length_eq ▸ hlt
  have hitems := hall.get hlt hlt'
  simp only [List.get_eq_getElem, hrow] at hitems
  exact ⟨views[i - 1], List.getElem?_eq_getElem hlt', hitems⟩

/-- **The items of a selection** are the items of the selected rows. -/
theorem elements_select (hv : v.Sound) (h : v.select indices = .ok w) {views selected : List View}
    (hviews : v.elements = .ok views) (hselected : w.elements = .ok selected)
    (hk : indices[k]? = some i) : ∃ u, selected[k]? = some u ∧ views[i - 1]? = some u := by
  have hi : v.HasRow i := (select_eq_ok_iff.mp h).1 i (List.mem_of_getElem? hk)
  obtain ⟨u, hu, hitems⟩ := elements_row hviews hi
  obtain ⟨u', hu', hitems'⟩ := elements_row hselected (hasRow_select hv h hk)
  rw [Nat.add_sub_cancel] at hu' hitems'
  rw [itemsOf_select hv h hk, hitems] at hitems'
  cases hitems'
  exact ⟨u, hu', hu⟩

/-- How a selection of rows goes with the other operations on a view. Views are equal in their rows,
their schemas, their types and where they come from. -/
structure SelectionLaws (v : View) (indices : List Nat) (w : View) : Prop where
  /-- Selecting from the selection is selecting from the view. -/
  select : ∀ positions z, w.select positions = .ok z → v.select (composed indices positions) = .ok z
  /-- A column of the selection is the selection from a column. -/
  field : ∀ name x, w.field? name = .ok (some x) →
    ∃ y, v.field? name = .ok (some y) ∧ y.select indices = .ok x
  /-- A field that the selection lacks is one that the view lacks or that is absent from every
  selected row. -/
  lacking : ∀ name, w.field? name = .ok none → v.field? name = .ok none ∨
    ∃ y z, v.field? name = .ok (some y) ∧ y.select indices = .ok z ∧
      ∀ row ∈ z.rows, row = .absent
  /-- The items of a row of the selection are those of the selected row. -/
  elements : ∀ views selected : List View, v.elements = .ok views → w.elements = .ok selected →
    ∀ k i : Nat, indices[k]? = some i → ∃ u, selected[k]? = some u ∧ views[i - 1]? = some u

/-- **Selections go with all other operations**, over every chain of views. -/
theorem selection_laws {source : ByteSource} {config : Config}
    (hroot : load source config = .ok root) (hchain : root.Chain v)
    (h : v.select indices = .ok w) : v.SelectionLaws indices w := by
  have hv : v.Sound := sound_chain hroot hchain
  exact {
    select := fun _ _ hz => select_select hv h hz
    field := fun _ _ hx => field_select hv h hx
    lacking := fun _ hx => absent_of_lacking hv h hx
    elements := fun _ _ hviews hselected _ _ hk => elements_select hv h hviews hselected hk }

/-- Three records: one has a nested name, one has an array, one has neither. -/
def unlikeRecords : ByteSource :=
  .ofString "\x7b\"p\":\x7b\"q\":1\x7d\x7d\n\x7b\"p\":[2,null]\x7d\n\x7b\"r\":0.5\x7d\n"

/-- A repeated and reordered selection from a column. -/
theorem selection_laws_unlikeRecords : ∃ root v w, load unlikeRecords {} = .ok root ∧
    root.Chain v ∧ v.select [3, 2, 3] = .ok w ∧ v.SelectionLaws [3, 2, 3] w := by
  have hrun : ((load unlikeRecords {}).toOption.bind fun root =>
      (root.field? "p").toOption.bind fun field => field.bind fun v =>
        (v.select [3, 2, 3]).toOption.map rowCount) = some 3 := by
    decide +kernel
  obtain ⟨root, hload, hrun⟩ := Option.bind_eq_some_iff.mp hrun
  obtain ⟨field, hfield, hrun⟩ := Option.bind_eq_some_iff.mp hrun
  obtain ⟨v, rfl, hrun⟩ := Option.bind_eq_some_iff.mp hrun
  obtain ⟨w, hselect, -⟩ := Option.map_eq_some_iff.mp hrun
  have hroot := eq_ok_of_toOption hload
  have hchain : root.Chain v := .single (.field (eq_ok_of_toOption hfield))
  have hw := eq_ok_of_toOption hselect
  exact ⟨root, v, w, hroot, hchain, hw, selection_laws hroot hchain hw⟩

end View

end JsonLines
