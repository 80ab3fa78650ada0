/-
JsonLines.Proofs.Columns.Exporting — when a dataset can be made a table, and what the table holds.

The column of a view is said without the steps that make it (`columnOf`): a view of arrays, of
records or of mixed values has its JSON text as a column, which asks for no limit. Making it does,
though: a view of arrays is simplified first, and that makes a view of the items of each row, only
to leave them for the text. So a column that is nothing but text cannot be made when a row of it has
more items than there may be rows (`exists_toColumn_iff`), while the same rows among others of
another kind can. This is the only error that a table can end in, whatever chain led to the view.
Besides, the texts of a column must fit.

The limit decides nothing else: whenever the table can be made under two limits, it is the same
table (`toBatch_limited`).
-/
import JsonLines.Columns.Batch
import JsonLines.Proofs.Coercion.Simplifying

namespace JsonLines

/-- The number of values. -/
def ColumnValues.length : ColumnValues → Nat
  | .boolean values => values.length
  | .int32 values => values.length
  | .float64 values => values.length
  | .utf8 values => values.length

namespace Contents

variable {source : ByteSource} {limits : Config.Limits} {maxRows : Option Nat} {pick : Pick}
  {picks : List Pick} {g g' next next' : Gathering} {c c' : Contents}

/-! ## Gathering under two limits -/

/-- The gatherings hold the same rows, whatever slots there are. -/
structure SameRows (g g' : Gathering) : Prop where
  schema_eq : g'.schema = g.schema
  type_eq : g'.type = g.type
  rows_eq : g'.store.rows = g.store.rows
  sound : g.store.Sound
  sound' : g'.store.Sound

theorem SameRows.add (h : SameRows g g') (hadd : g.add source limits pick = .ok next)
    (hadd' : g'.add source { limits with maxRows } pick = .ok next') : SameRows next next' := by
  obtain ⟨cell, s, store, hscan, hpush, rfl⟩ := add_eq_ok_iff.mp hadd
  obtain ⟨cell', s', store', hscan', hpush', rfl⟩ := add_eq_ok_iff.mp hadd'
  have hsame : pick.scan source limits g.schema = (.ok cell', s') := h.schema_eq ▸ hscan'
  cases hscan.symm.trans hsame
  obtain ⟨-, hsound, hrows, -⟩ := RowStore.lt_of_push h.sound hpush
  obtain ⟨-, hsound', hrows', -⟩ := RowStore.lt_of_push h.sound' hpush'
  refine ⟨?_, ?_, ?_, hsound, hsound'⟩
  · simp only [h.type_eq]
  · simp only [h.type_eq]
  · simp only [hrows, hrows', h.rows_eq]

theorem SameRows.addAll (h : SameRows g g') (hadd : g.addAll source limits picks = .ok next)
    (hadd' : g'.addAll source { limits with maxRows } picks = .ok next') :
    SameRows next next' := by
  induction picks generalizing g g' with
  | nil =>
    cases hadd
    cases hadd'
    exact h
  | cons pick picks ih =>
    obtain ⟨mid, hstep, hrest⟩ := addAll_cons_eq_ok_iff.mp hadd
    obtain ⟨mid', hstep', hrest'⟩ := addAll_cons_eq_ok_iff.mp hadd'
    exact ih (h.add hstep hstep') hrest hrest'

/-- What is gathered under two limits is the same. -/
theorem gather_limited (h : gather source limits picks = .ok c)
    (h' : gather source { limits with maxRows } picks = .ok c') : c = c' := by
  obtain ⟨g, hall, rfl⟩ := gather_eq_ok_iff.mp h
  obtain ⟨g', hall', rfl⟩ := gather_eq_ok_iff.mp h'
  have hrows : (Gathering.start { limits with maxRows }).store.rows =
      (Gathering.start limits).store.rows := by
    rw [← Array.toList_inj, rows_start, rows_start]
  have hstart : SameRows (Gathering.start limits) (Gathering.start { limits with maxRows }) :=
    ⟨rfl, rfl, hrows, RowStore.sound_withLimit _ _, RowStore.sound_withLimit _ _⟩
  have hsame := hstart.addAll hall hall'
  rw [hsame.schema_eq, hsame.type_eq, hsame.rows_eq]

end Contents

namespace View

variable {root v w : View} {e : Error} {column : ColumnValues} {batch : Batch}
  {views : List (String × View)} {columns : List (String × ColumnValues)} {maxRows : Option Nat}

/-! ## One column -/

/-- The column of a view. Arrays, records and mixed values are written as their JSON text. -/
def columnOf (v : View) : ColumnValues :=
  match v.kind with
  | .null | .boolean => .boolean v.toBoolean.values
  | .integer => if v.widens then .float64 v.toReal.values else .int32 v.toInteger.values
  | .real => .float64 v.toReal.values
  | .text => .utf8 v.toText.values
  | .array | .record | .any => .utf8 v.toJsonText

/-- A column has one value for each row. -/
theorem length_columnOf (v : View) : v.columnOf.length = v.rowCount := by
  unfold columnOf
  split
  case h_3 => split <;> exact length_coerce v _
  case h_6 | h_7 | h_8 => exact List.length_map ..
  all_goals exact length_coerce v _

theorem toColumn_of_simplify_eq_ok {s : Simplified} (h : v.simplify = .ok s) :
    v.toColumn = .ok v.columnOf := by
  rw [toColumn, h]
  cases hkind : v.kind with
  | integer =>
    rw [columnOf, hkind]
    rw [simplify, hkind] at h
    cases hwidens : v.widens <;> rw [hwidens] at h <;> cases h <;> rfl
  | array =>
    rw [columnOf, hkind]
    rw [simplify, hkind] at h
    cases helements : v.elements with
    | error e =>
      rw [helements] at h
      cases h
    | ok views =>
      rw [helements] at h
      cases h
      rfl
  | _ =>
    rw [columnOf, hkind]
    rw [simplify, hkind] at h
    cases h
    rfl

theorem toColumn_eq_error_iff : v.toColumn = .error e ↔ v.simplify = .error e := by
  cases hsimplify : v.simplify with
  | error e' => simp [toColumn, hsimplify]
  | ok s => simp [toColumn_of_simplify_eq_ok hsimplify]

/-- **A column fails for a row that has too many items**, even where the items are not wanted. -/
theorem exists_toColumn_iff (hv : v.Sound) :
    (∃ column, v.toColumn = .ok column) ↔ v.ItemsFit := by
  rw [← exists_simplify_iff hv]
  cases hsimplify : v.simplify with
  | error e => simp [toColumn_eq_error_iff.mpr hsimplify]
  | ok s => simp [toColumn_of_simplify_eq_ok hsimplify]

theorem columnOf_of_toColumn (h : v.toColumn = .ok column) : v.columnOf = column := by
  cases hsimplify : v.simplify with
  | error e => cases h.symm.trans (toColumn_eq_error_iff.mpr hsimplify)
  | ok s =>
    cases h.symm.trans (toColumn_of_simplify_eq_ok hsimplify)
    rfl

/-! ## All columns -/

/-- A view as a column under its name. -/
def toNamedColumn (view : String × View) : Except Error (String × ColumnValues) :=
  match view.2.toColumn with
  | .error e => .error e
  | .ok column => .ok (view.1, column)

/-- The column of a view under its name. -/
def namedColumnOf (view : String × View) : String × ColumnValues := (view.1, view.2.columnOf)

theorem toNamedColumn_eq_error_iff {view : String × View} :
    toNamedColumn view = .error e ↔ view.2.simplify = .error e := by
  rw [← toColumn_eq_error_iff, toNamedColumn]
  cases view.2.toColumn <;> simp

theorem exists_toNamedColumn_iff {view : String × View} (hview : view.2.Sound) :
    (∃ named, toNamedColumn view = .ok named) ↔ view.2.ItemsFit := by
  rw [← exists_toColumn_iff hview, toNamedColumn]
  cases view.2.toColumn <;> simp

theorem namedColumnOf_of_toNamedColumn {view : String × View} {named : String × ColumnValues}
    (h : toNamedColumn view = .ok named) : namedColumnOf view = named := by
  unfold toNamedColumn at h
  cases hcolumn : view.2.toColumn with
  | error e =>
    rw [hcolumn] at h
    cases h
  | ok column =>
    rw [hcolumn] at h
    cases h
    rw [namedColumnOf, columnOf_of_toColumn hcolumn]

theorem collects_toColumns : Collects toColumns toNamedColumn where
  nil := rfl
  cons view views := by
    simp only [toColumns, toNamedColumn]
    cases view.2.toColumn with
    | error e => rfl
    | ok column => cases toColumns views <;> rfl

theorem map_namedColumnOf_of_toColumns (h : toColumns views = .ok columns) :
    views.map namedColumnOf = columns := by
  have hall := collects_toColumns.eq_ok_iff.mp h
  rw [map_eq_map_of_forall₂ hall fun _ _ => namedColumnOf_of_toNamedColumn, List.map_id']

/-! ## The table -/

/-- The views that become columns are sound, and have the rows and the limits of the view. -/
structure Aligned (v w : View) : Prop where
  sound : w.Sound
  rowCount_eq : w.rowCount = v.rowCount
  rowLimit_eq : w.rowLimit = v.rowLimit

theorem aligned_column (hv : v.Sound) {n : NameId} {name : String}
    (h : v.column n name = .ok w) : v.Aligned w where
  sound := (regathered_column hv h).sound
  rowCount_eq := rowCount_column hv h
  rowLimit_eq := by rw [rowLimit, (regathered_column hv h).config_eq, rowLimit]

theorem exists_columnViews (hv : v.Sound) :
    ∃ views, v.columnViews = .ok views ∧ ∀ view ∈ views, v.Aligned view.2 := by
  unfold columnViews
  split
  · obtain ⟨views, hviews⟩ := exists_columns_eq_ok hv
    refine ⟨views, hviews, fun view hview => ?_⟩
    obtain ⟨field, -, hcolumn⟩ := exists_of_forall₂ (columnsOf_eq_ok_iff.mp hviews) hview
    exact aligned_column hv (namedColumn_eq_ok_iff.mp hcolumn).2
  · exact ⟨_, rfl, List.forall_mem_singleton.mpr ⟨hv, rfl, rfl⟩⟩

/-- The table of the columns of some views, which are those of a view. -/
def tableOf (v : View) (views : List (String × View)) : Batch where
  rowCount := v.rowCount
  columns := views.map namedColumnOf

theorem tableOf_of_toBatch (hviews : v.columnViews = .ok views) (h : v.toBatch = .ok batch) :
    v.tableOf views = batch := by
  unfold toBatch at h
  rw [hviews] at h
  cases hcolumns : toColumns views with
  | error e => simp [hcolumns] at h
  | ok columns =>
    simp only [hcolumns, Except.ok.injEq] at h
    rw [← h, tableOf, map_namedColumnOf_of_toColumns hcolumns]

theorem exists_toBatch_iff (hviews : v.columnViews = .ok views)
    (hsound : ∀ view ∈ views, view.2.Sound) :
    (∃ batch, v.toBatch = .ok batch) ↔ ∀ view ∈ views, view.2.ItemsFit := by
  have hcolumns : (∃ columns, toColumns views = .ok columns) ↔
      ∀ view ∈ views, view.2.ItemsFit :=
    collects_toColumns.exists_iff.trans
      (forall₂_congr fun view hview => exists_toNamedColumn_iff (hsound view hview))
  rw [← hcolumns, toBatch, hviews]
  dsimp only
  cases toColumns views <;> simp

theorem textFits_tableOf_iff :
    (v.tableOf views).TextFits ↔ ∀ view ∈ views, view.2.columnOf.TextFits :=
  List.forall_mem_map

/-- **When there is a table whose texts fit.** -/
theorem exists_textFits_iff (hviews : v.columnViews = .ok views)
    (hsound : ∀ view ∈ views, view.2.Sound) :
    (∃ batch, v.toBatch = .ok batch ∧ batch.TextFits) ↔
      ∀ view ∈ views, view.2.ItemsFit ∧ view.2.columnOf.TextFits := by
  rw [forall₂_and, ← exists_toBatch_iff hviews hsound, ← textFits_tableOf_iff]
  constructor
  · rintro ⟨batch, hbatch, hfits⟩
    exact ⟨⟨batch, hbatch⟩, by rwa [tableOf_of_toBatch hviews hbatch]⟩
  · rintro ⟨⟨batch, hbatch⟩, hfits⟩
    exact ⟨batch, hbatch, by rwa [← tableOf_of_toBatch hviews hbatch]⟩

/-- A table fails as one of its columns does. -/
theorem toBatch_error (hviews : v.columnViews = .ok views)
    (haligned : ∀ view ∈ views, v.Aligned view.2) (h : v.toBatch = .error e) :
    e = .capacityExceeded (v.rowLimit + 1) v.rowLimit := by
  unfold toBatch at h
  rw [hviews] at h
  cases hcolumns : toColumns views with
  | ok columns => simp [hcolumns] at h
  | error e' =>
    simp only [hcolumns, Except.error.injEq] at h
    obtain ⟨view, hview, herror⟩ := collects_toColumns.exists_of_eq_error hcolumns
    obtain ⟨hsound, -, hlimit⟩ := haligned view hview
    rw [← h, ← hlimit]
    exact ((simplify_eq_error_iff hsound).mp (toNamedColumn_eq_error_iff.mp herror)).1

/-! ## Another limit -/

/-- The same rows under another limit of rows. -/
def limited (v : View) (maxRows : Option Nat) : View :=
  { v with config := { v.config with limits := { v.config.limits with maxRows } } }

theorem columnOf_limited (v : View) (maxRows : Option Nat) :
    (v.limited maxRows).columnOf = v.columnOf := rfl

theorem regather_limited {provenance : Provenance} {picks : List Pick} {w' : View}
    (h : v.regather provenance picks = .ok w)
    (h' : (v.limited maxRows).regather provenance picks = .ok w') : w.limited maxRows = w' := by
  obtain ⟨c, hgather, rfl⟩ := regather_eq_ok_iff.mp h
  obtain ⟨c', hgather', rfl⟩ := regather_eq_ok_iff.mp h'
  cases Contents.gather_limited hgather hgather'
  rfl

theorem columnsOf_limited {fields : List Field} {views' : List (String × View)}
    (h : v.columnsOf fields = .ok views)
    (h' : (v.limited maxRows).columnsOf fields = .ok views') :
    views.map namedColumnOf = views'.map namedColumnOf := by
  -- Both runs go through the same fields, so they are compared field by field.
  have hall := columnsOf_eq_ok_iff.mp h
  have hall' := columnsOf_eq_ok_iff.mp h'
  clear h h'
  induction hall generalizing views' with
  | nil =>
    cases hall'
    rfl
  | @cons field column fields columns hcolumn _ ih =>
    obtain ⟨column', columns', hcolumn', hrest', rfl⟩ := List.forall₂_cons_left_iff.mp hall'
    obtain ⟨hname, hview⟩ := namedColumn_eq_ok_iff.mp hcolumn
    obtain ⟨hname', hview'⟩ := namedColumn_eq_ok_iff.mp hcolumn'
    have hlimited : column.2.limited maxRows = column'.2 := regather_limited hview hview'
    have hhead : namedColumnOf column = namedColumnOf column' := by
      rw [namedColumnOf, namedColumnOf, ← hname, ← hname', ← hlimited, columnOf_limited]
      rfl
    rw [List.map_cons, List.map_cons, hhead, ih hrest']

theorem columnViews_limited {views' : List (String × View)} (h : v.columnViews = .ok views)
    (h' : (v.limited maxRows).columnViews = .ok views') :
    views.map namedColumnOf = views'.map namedColumnOf := by
  have hrecord : (v.limited maxRows).isRecord = v.isRecord := rfl
  unfold columnViews at h h'
  rw [hrecord] at h'
  split at h
  · rename_i hkind
    rw [if_pos hkind] at h'
    exact columnsOf_limited h h'
  · rename_i hkind
    rw [if_neg hkind] at h'
    cases h
    cases h'
    rfl

theorem exists_columnViews_of_toBatch (h : v.toBatch = .ok batch) :
    ∃ views, v.columnViews = .ok views := by
  unfold toBatch at h
  cases hviews : v.columnViews with
  | error e => simp [hviews] at h
  | ok views => exact ⟨views, rfl⟩

/-- **The limit decides no table**, only whether there is one. -/
theorem toBatch_limited {batch' : Batch} (h : v.toBatch = .ok batch)
    (h' : (v.limited maxRows).toBatch = .ok batch') : batch' = batch := by
  obtain ⟨views, hviews⟩ := exists_columnViews_of_toBatch h
  obtain ⟨views', hviews'⟩ := exists_columnViews_of_toBatch h'
  rw [← tableOf_of_toBatch hviews h, ← tableOf_of_toBatch hviews' h', tableOf, tableOf,
    columnViews_limited hviews hviews']
  rfl

/-! ## Exports -/

/-- What becomes of a view when it is made a table of the columns of some views. -/
structure Exports (v : View) (views : List (String × View)) : Prop where
  /-- There is a table unless the covering type of a column is an array and a row of that column has
  more items than there may be rows, or the texts of a column do not fit. -/
  exists_iff : (∃ batch, v.toBatch = .ok batch ∧ batch.TextFits) ↔
    ∀ view ∈ views, view.2.ItemsFit ∧ view.2.columnOf.TextFits
  /-- The only error is the limit of rows. -/
  error : ∀ e, v.toBatch = .error e → e = .capacityExceeded (v.rowLimit + 1) v.rowLimit
  /-- The table counts the rows and holds the columns, with a value for each row. -/
  table : ∀ batch, v.toBatch = .ok batch → batch.rowCount = v.rowCount ∧
    batch.columns = views.map namedColumnOf ∧
      ∀ column ∈ batch.columns, column.2.length = v.rowCount
  /-- Under any limit it is the same table. -/
  limited : ∀ batch maxRows batch', v.toBatch = .ok batch →
    (v.limited maxRows).toBatch = .ok batch' → batch' = batch

/-- **What exports**, over every chain of views. -/
theorem exports_chain {source : ByteSource} {config : Config}
    (hroot : load source config = .ok root) (hchain : root.Chain v) :
    ∃ views, v.columnViews = .ok views ∧ v.Exports views := by
  obtain ⟨views, hviews, haligned⟩ := exists_columnViews (sound_chain hroot hchain)
  have hsound : ∀ view ∈ views, view.2.Sound := fun view hview => (haligned view hview).sound
  refine ⟨views, hviews, {
    exists_iff := exists_textFits_iff hviews hsound
    error := fun _ => toBatch_error hviews haligned
    table := fun batch h => ?_
    limited := fun _ _ _ => toBatch_limited }⟩
  rw [← tableOf_of_toBatch hviews h]
  refine ⟨rfl, rfl, fun column hcolumn => ?_⟩
  obtain ⟨view, hview, rfl⟩ := List.mem_map.mp hcolumn
  rw [namedColumnOf, length_columnOf, (haligned view hview).rowCount_eq]

/-- A record whose only field is an array of three items. -/
def longRow : ByteSource := .ofString "\x7b\"a\": [1, 2, 3]\x7d\n"

/-- The record and one in which the field is a number. -/
def longRowAmongOthers : ByteSource := .ofString "\x7b\"a\": [1, 2, 3]\x7d\n\x7b\"a\": 0\x7d\n"

/-- The field is mixed, so its long row is written without being taken apart. -/
theorem exports_chain_longRowAmongOthers : ∃ root, load longRowAmongOthers twoRows = .ok root ∧
    ∃ views, root.columnViews = .ok views ∧ root.Exports views ∧
      root.toBatch = .ok ⟨2, [("a", .utf8 [some "[1, 2, 3]", some "0"])]⟩ := by
  have hrun : ((load longRowAmongOthers twoRows).toOption.bind fun root =>
      root.toBatch.toOption) = some ⟨2, [("a", .utf8 [some "[1, 2, 3]", some "0"])]⟩ := by
    decide +kernel
  obtain ⟨root, hload, hbatch⟩ := Option.bind_eq_some_iff.mp hrun
  have hroot := eq_ok_of_toOption hload
  obtain ⟨views, hviews, hexports⟩ := exports_chain hroot .refl
  exact ⟨root, hroot, views, hviews, hexports, eq_ok_of_toOption hbatch⟩

/-- **A view that loads need not export**: alone, the long row exceeds a limit that the load
respects. -/
theorem not_exports_longRow : ∃ root, load longRow twoRows = .ok root ∧ root.rowCount = 1 ∧
    root.toBatch = .error (.capacityExceeded 3 2) := by
  have hrun : ((load longRow twoRows).toOption.map fun root => (root.rowCount, root.toBatch)) =
      some (1, .error (.capacityExceeded 3 2)) := by
    decide +kernel
  obtain ⟨root, hload, hfails⟩ := Option.map_eq_some_iff.mp hrun
  obtain ⟨hcount, hbatch⟩ := Prod.mk.inj hfails
  exact ⟨root, eq_ok_of_toOption hload, hcount, hbatch⟩

end View

end JsonLines
