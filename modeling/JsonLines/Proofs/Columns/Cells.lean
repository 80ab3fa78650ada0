/-
JsonLines.Proofs.Columns.Cells — every cell of a table, from the values of the rows.

A table is made of views that are converted; here it is said from end to end, by the values that the
rows are read as. The column of some values takes its type from all of them (`FillsColumn`), and
each of its cells holds what the value at its place holds. The columns of a record dataset are those
of the members of the rows, name by name; any other dataset has a single column of its rows.
-/
import JsonLines.Proofs.Coercion.RowValues
import JsonLines.Proofs.Columns.TextSizes
import JsonLines.Proofs.Command.Showing

namespace JsonLines

open Json

/-- The column of some values. All values of a column that are there and are not null decide its
type, and the column is JSON text where they are neither booleans, nor numbers, nor strings. -/
inductive FillsColumn (source : ByteSource) (values : List (Option Node)) :
    ColumnValues → Prop where
  | boolean {cells : List (Option Bool)} : Node.Every (·.OfKind .boolean) values →
    List.Forall₂ (Convert.Cell Node.HoldsBoolean) values cells →
      FillsColumn source values (.boolean cells)
  | int32 {cells : List (Option Int)} : ¬ Node.Every (fun _ => False) values →
    Node.Every Node.IsInteger32 values →
      List.Forall₂ (Convert.Cell Node.HoldsInteger) values cells →
        FillsColumn source values (.int32 cells)
  | float64 {cells : List (Option Binary64)} : Node.Every (·.OfKind .real) values →
    ¬ Node.Every Node.IsInteger32 values →
      List.Forall₂ (Convert.Cell Node.HoldsReal) values cells →
        FillsColumn source values (.float64 cells)
  | utf8 {cells : List (Option String)} : ¬ Node.Every (fun _ => False) values →
    Node.Every (·.OfKind .text) values →
      List.Forall₂ (Convert.Cell Node.HoldsText) values cells →
        FillsColumn source values (.utf8 cells)
  | json {cells : List (Option String)} : ¬ Node.Every (·.OfKind .boolean) values →
    ¬ Node.Every (·.OfKind .real) values → ¬ Node.Every (·.OfKind .text) values →
      List.Forall₂ (View.RawCell source) values cells → FillsColumn source values (.utf8 cells)

namespace View

variable {root v w : View} {n : NameId} {name : String}

/-! ## One column -/

/-- **The column of a view** is that of its values. -/
theorem fillsColumn (hv : v.Sound) : FillsColumn v.source v.values v.columnOf := by
  have hevery : ∀ {k}, v.kind ≤ k → Node.Every (·.OfKind k) v.values := (kind_le_iff hv).mp
  have hsome : ∀ {k}, ¬ v.kind ≤ k → ¬ Node.Every (·.OfKind k) v.values :=
    fun h hall => h ((kind_le_iff hv).mpr hall)
  have hjson : (∀ k ∈ [Kind.boolean, .real, .text], ¬ v.kind ≤ k) →
      FillsColumn v.source v.values (.utf8 v.toJsonText) := by
    intro hnone
    exact .json (hsome (hnone _ (by decide))) (hsome (hnone _ (by decide)))
      (hsome (hnone _ (by decide))) (rawCells hv)
  unfold columnOf
  cases hkind : v.kind with
  | null => exact .boolean (hevery (by rw [hkind]; decide)) (cells_toBoolean hv)
  | boolean => exact .boolean (hevery (by rw [hkind]; decide)) (cells_toBoolean hv)
  | integer =>
    have hwidens := widens_eq_false_iff hv hkind
    cases hw : v.widens with
    | false =>
      exact .int32 (hsome (k := .null) (by rw [hkind]; decide)) (hwidens.mp hw) (cells_toInteger hv)
    | true =>
      refine .float64 (hevery (by rw [hkind]; decide)) (fun hall => ?_) (cells_toReal hv)
      cases hw.symm.trans (hwidens.mpr hall)
  | real =>
    refine .float64 (hevery (by rw [hkind]; decide)) (fun hall => ?_) (cells_toReal hv)
    refine hsome (k := .integer) (by rw [hkind]; decide) fun m hm => (hall m hm).imp_right ?_
    rintro ⟨i, span, n, hm, hintegral, -⟩
    exact ⟨span, n, hm, hintegral⟩
  | text =>
    exact .utf8 (hsome (k := .null) (by rw [hkind]; decide)) (hevery (by rw [hkind]; decide))
      (cells_toText hv)
  | array => exact hjson (by rw [hkind]; decide)
  | record => exact hjson (by rw [hkind]; decide)
  | any => exact hjson (by rw [hkind]; decide)

/-- The values of a column are the members of the values. -/
theorem values_column (hv : v.Sound) (hn : v.schema.name? n = some name)
    (hw : v.column n name = .ok w) : w.values = v.values.map (·.bind (·.member? name)) := by
  refine List.ext_getElem? fun k => ?_
  by_cases hk : k < v.rowCount
  · have hi : v.HasRow (k + 1) := ⟨Nat.le_add_left 1 k, hk⟩
    have hvalue := getElem?_values hi
    have hcolumn := getElem?_values (hasRow_column hv hw hi)
    rw [Nat.add_sub_cancel] at hvalue hcolumn
    rw [hcolumn, List.getElem?_map, hvalue, (projects_column hv hn hw).valueAt_eq hv hi]
    rfl
  · rw [List.getElem?_eq_none, List.getElem?_eq_none]
    · rw [List.length_map, length_values]
      omega
    · rw [length_values, rowCount_column hv hw]
      omega

/-! ## The table -/

/-- A table holds the cells of a view: one row for each row, and the columns of its members, or a
single one of its values. -/
structure HoldsCells (v : View) (batch : Batch) : Prop where
  rowCount_eq : batch.rowCount = v.rowCount
  /-- A record dataset has a column for each field, in the order of the fields. -/
  record : v.isRecord = true → ∃ names, v.names? = some names ∧
    List.Forall₂ (fun name column => column.1 = name ∧
      FillsColumn v.source (v.values.map (·.bind (·.member? name))) column.2) names batch.columns
  other : v.isRecord = false → ∃ column, batch.columns = [("value", column)] ∧
    FillsColumn v.source v.values column

theorem holdsCells {batch : Batch} (hv : v.Sound) (h : v.toBatch = .ok batch) :
    v.HoldsCells batch := by
  obtain ⟨views, hviews⟩ := exists_columnViews_of_toBatch h
  rw [← tableOf_of_toBatch hviews h]
  refine ⟨rfl, fun hrecord => ?_, fun hother => ?_⟩
  · obtain ⟨fields, hfields⟩ := exists_fields hrecord
    refine ⟨_, by rw [names?, hfields]; rfl, ?_⟩
    rw [columnViews, hrecord, if_pos rfl, columns, hfields, Option.getD_some,
      columnsOf_eq_ok_iff] at hviews
    have hknown := (List.forall₂_and_left _ _).mpr
      ⟨fun f hf => exists_fieldName hv hfields hf, hviews⟩
    rw [tableOf, List.forall₂_map_left_iff, List.forall₂_map_right_iff]
    refine hknown.imp fun f column hcolumn => ?_
    obtain ⟨⟨name, hname⟩, hcolumn⟩ := hcolumn
    obtain ⟨htext, hw⟩ := namedColumn_eq_ok_iff.mp hcolumn
    have hregathered := regathered_column hv hw
    have heq : v.schema.name f.name = name := by
      rw [Schema.name, hname]
      rfl
    rw [namedColumnOf, heq, ← values_column hv hname (heq ▸ hw), ← hregathered.source_eq]
    exact ⟨htext.symm.trans heq, fillsColumn hregathered.sound⟩
  · rw [columnViews, hother] at hviews
    cases hviews
    exact ⟨_, rfl, fillsColumn hv⟩

/-- No row has more items than there may be rows, if no array in a record does. -/
theorem itemsFit_of_narrowRecords (htraced : Traced root w) (hnarrow : root.NarrowRecords) :
    w.ItemsFit := by
  intro _ row hrow
  rcases htraced.mem_records hrow with rfl | ⟨record, hrecord, node, m, hread, hm, hscanned⟩
  · exact Nat.zero_le _
  · rw [rowLimit, htraced.config_eq]
    exact length_elements_le hscanned fun span items hpart =>
      hnarrow record hrecord node hread span items (hpart.trans hm)

/-- The texts of each column of the view fit. -/
def ColumnsFit (v : View) : Prop :=
  ∀ views, v.columnViews = .ok views → ∀ view ∈ views, view.2.columnOf.TextFits

/-- The texts of a column are in the texts of the rows. -/
theorem columnsFit_of_rowsSize_le (hv : v.Sound) (h : v.rowsSize ≤ ColumnValues.textLimit) :
    v.ColumnsFit := by
  intro views hviews view hview
  suffices hsize : view.2.columnOf.textSize ≤ v.rowsSize from hsize.trans h
  cases hrecord : v.isRecord with
  | false =>
    rw [columnViews, hrecord] at hviews
    cases hviews
    rw [List.mem_singleton.mp hview]
    exact textSize_columnOf_le hv
  | true =>
    obtain ⟨fields, hfields⟩ := exists_fields hrecord
    rw [columnViews, hrecord, if_pos rfl, columns, hfields, Option.getD_some,
      columnsOf_eq_ok_iff] at hviews
    obtain ⟨f, hf, hcolumn⟩ := exists_of_forall₂ hviews hview
    obtain ⟨name, hname⟩ := exists_fieldName hv hfields hf
    obtain ⟨-, hw⟩ := namedColumn_eq_ok_iff.mp hcolumn
    have heq : v.schema.name f.name = name := by
      rw [Schema.name, hname]
      rfl
    have hmembers := totalSize_member?_le hv name
    rw [← values_column hv hname (heq ▸ hw)] at hmembers
    exact (textSize_columnOf_le (regathered_column hv hw).sound).trans hmembers

/-- What the table of a view is; `root` is the view that it comes from. -/
structure Tabulates (root v : View) : Prop where
  /-- There is a table, if no limit of rows is set and the texts of each column fit. -/
  exists_batch : root.config.limits.maxRows = none →
    root.source.size ≤ RowStore.addressable Contents.rowWidth → v.ColumnsFit →
      ∃ batch, v.toBatch = .ok batch ∧ batch.TextFits
  /-- The texts of each column fit if the texts of the rows do together. -/
  columns_fit : v.rowsSize ≤ ColumnValues.textLimit → v.ColumnsFit
  /-- The texts of the rows that were loaded take no more bytes than the source. -/
  rowsSize_le : root.rowsSize ≤ root.source.size
  cells : ∀ batch, v.toBatch = .ok batch → v.HoldsCells batch

/-- **The table of a view holds every cell**, over every chain of views. -/
theorem tabulates {source : ByteSource} {config : Config} (hroot : load source config = .ok root)
    (hchain : root.Chain v) : root.Tabulates v := by
  have hv := sound_chain hroot hchain
  refine ⟨fun hlimit hsize hfits => ?_, columnsFit_of_rowsSize_le hv, rowsSize_root_le hroot,
    fun batch => holdsCells hv⟩
  obtain ⟨views, hviews, haligned⟩ := exists_columnViews hv
  refine (exists_textFits_iff hviews fun view hview => (haligned view hview).sound).mpr ?_
  intro view hview
  refine ⟨?_, hfits views hviews view hview⟩
  have hview : root.Chain view.2 := by
    unfold columnViews at hviews
    split at hviews
    · exact hchain.tail (.columns hviews hview)
    · cases hviews
      rw [List.mem_singleton.mp hview]
      exact hchain
  exact itemsFit_of_narrowRecords (traced_chain hroot hview)
    (narrowRecords_of_unlimited hlimit hsize)

/-- Three records: numbers of which one is no double, strings, and arrays with a null among them. -/
def unevenMembers : ByteSource := .ofString
  "\x7b\"a\":1,\"c\":[1]\x7d\n\x7b\"a\":1e999,\"c\":null\x7d\n\x7b\"b\":\"x\"\x7d\n"

/-- The table of the records in reverse. -/
theorem tabulates_unevenMembers : ∃ root v, load unevenMembers {} = .ok root ∧ root.Chain v ∧
    v.toBatch = .ok ⟨3,
      [("b", .utf8 [some "x", none, none]),
       ("a", .float64 [none, none, some (Binary64.ofNat 1)]),
       ("c", .utf8 [none, some "null", some "[1]"])]⟩ ∧ root.Tabulates v := by
  have hrun : ((load unevenMembers {}).toOption.bind fun root =>
      (root.select [3, 2, 1]).toOption.bind fun v => v.toBatch.toOption) = some ⟨3,
        [("b", .utf8 [some "x", none, none]),
         ("a", .float64 [none, none, some (Binary64.ofNat 1)]),
         ("c", .utf8 [none, some "null", some "[1]"])]⟩ := by
    decide +kernel
  obtain ⟨root, hload, hrun⟩ := Option.bind_eq_some_iff.mp hrun
  obtain ⟨v, hselect, hbatch⟩ := Option.bind_eq_some_iff.mp hrun
  have hroot := eq_ok_of_toOption hload
  have hchain : root.Chain v := .single (.select (eq_ok_of_toOption hselect))
  exact ⟨root, v, hroot, hchain, eq_ok_of_toOption hbatch, tabulates hroot hchain⟩

end View

end JsonLines
