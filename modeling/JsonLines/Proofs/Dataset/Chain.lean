/-
JsonLines.Proofs.Dataset.Chain — the views that come from a view.

`View.Step` lists the operations that make views of a view, `View.Chain` puts any number of them
after one another. Different as they look, each of them does the same thing: it draws parts of rows,
each from the row at some index, and gathers their spans anew (`Step.drawn`). The new row map lists
the source rows of those rows, unless every row was drawn from once and in order; then the old map
stays. All invariants of chains are proved for draws alone.
-/
import JsonLines.Dataset.Selection
import JsonLines.Proofs.Collecting
import JsonLines.Proofs.Dataset.Gathering
import JsonLines.Proofs.Scan.Parts
import Mathlib.Logic.Relation

namespace JsonLines.View

variable {v w : View}

/-! ## Chains -/

/-- A view that one operation gives. -/
inductive Step (v : View) : View → Prop where
  | select {indices : List Nat} {w : View} : v.select indices = .ok w → Step v w
  | field {name : String} {w : View} : v.field? name = .ok (some w) → Step v w
  | subset {indices : Option (List Nat)} {name : Option String} {w : View} :
    v.subset indices name = .ok (some w) → Step v w
  | subscript {index : Nat} {w : View} : v.subscript index = .ok w → Step v w
  | columns {views : List (String × View)} {name : String} {w : View} : v.columns = .ok views →
    (name, w) ∈ views → Step v w
  | elements {views : List View} {w : View} : v.elements = .ok views → w ∈ views → Step v w

/-- A view that any number of operations give. -/
def Chain : View → View → Prop := Relation.ReflTransGen Step

/-! ## Draws -/

/-- A part of a row, or nothing, drawn from the row at an index. -/
structure Draw where
  index : Nat
  part : Option Cell

/-- The part drawn is inside the row at the index. -/
def Draw.From (d : Draw) (v : View) : Prop :=
  ∃ row, v.rows[d.index]? = some row ∧ ∀ c ∈ d.part, c.Part row

/-- The pick that gathers a part again. -/
def pick (v : View) (d : Draw) : Pick := ⟨d.part.bind spanOf?, v.rowNumber d.index⟩

/-- The second view is gathered from parts of rows of the first one. -/
structure Draws (v w : View) (draws : List Draw) (provenance : Provenance) : Prop where
  within : ∀ d ∈ draws, d.From v
  gathered : v.regather provenance (draws.map v.pick) = .ok w
  rows : provenance.rows = some (draws.map fun d => v.rowNumber d.index).toArray ∨
    provenance.rows = v.provenance.rows ∧ draws.map Draw.index = List.range v.rowCount

/-- The second view is drawn from the first one. -/
def Drawn (v w : View) : Prop := ∃ draws provenance, v.Draws w draws provenance

/-- What regathering gives. -/
theorem regather_eq_ok_iff {provenance : Provenance} {picks : List Pick} :
    v.regather provenance picks = .ok w ↔ ∃ contents,
      Contents.gather v.source v.config.limits picks = .ok contents ∧
        w = { v with provenance, contents } := by
  unfold regather
  cases Contents.gather v.source v.config.limits picks with
  | error e => simp
  | ok contents => simp [eq_comm]

/-- Selecting draws whole rows. -/
theorem select_drawn {indices : List Nat} (h : v.select indices = .ok w) :
    v.Drawn w := by
  unfold select at h
  split at h
  · cases h
  rename_i hvalid
  have hpicks : (indices.map fun i => (⟨i - 1, v.rows[i - 1]?⟩ : Draw)).map v.pick =
      indices.map fun i => ⟨(v.rows[i - 1]?).bind spanOf?, v.rowNumber (i - 1)⟩ := by
    rw [List.map_map]
    rfl
  refine ⟨indices.map fun i => ⟨i - 1, v.rows[i - 1]?⟩,
    v.provenance.withRows (indices.map fun i => v.rowNumber (i - 1)).toArray, ?_, ?_, .inl ?_⟩
  · intro d hd
    obtain ⟨i, hi, rfl⟩ := List.mem_map.mp hd
    have hrange := List.find?_eq_none.mp hvalid i hi
    simp only [Bool.or_eq_true, beq_iff_eq, decide_eq_true_eq, not_or, Nat.not_lt] at hrange
    have hlt : i - 1 < v.rows.size := by
      have : v.rowCount = v.rows.size := rfl
      omega
    refine ⟨v.rows[i - 1], Array.getElem?_eq_getElem hlt, ?_⟩
    intro c hc
    rw [Array.getElem?_eq_getElem hlt] at hc
    cases hc
    exact .self
  · rw [hpicks]
    simpa only [List.map_map, Function.comp_def] using h
  · rw [List.map_map]
    rfl

theorem mem_numberedRows {cell : Cell} {row : Nat} (h : (cell, row) ∈ v.numberedRows) :
    ∃ k, v.rows[k]? = some cell ∧ row = v.rowNumber k := by
  obtain ⟨⟨cell', k⟩, hmem, heq⟩ := List.mem_map.mp h
  cases heq
  refine ⟨k, ?_, rfl⟩
  rw [← Array.getElem?_toList]
  exact List.mem_zipIdx_iff_getElem?.mp hmem

/-- Projecting draws a member of each row, or nothing, in the order of the rows. -/
theorem column_drawn {id : NameId} {name : String} (h : v.column id name = .ok w) :
    v.Drawn w := by
  unfold column at h
  have hpicks : (v.rows.toList.zipIdx.map fun r => (⟨r.2, r.1.member? id⟩ : Draw)).map v.pick =
      v.numberedRows.map fun r => ⟨(r.1.member? id).bind spanOf?, r.2⟩ := by
    rw [numberedRows, List.map_map, List.map_map]
    rfl
  refine ⟨v.rows.toList.zipIdx.map fun r => ⟨r.2, r.1.member? id⟩,
    v.provenance.withField name, ?_, hpicks ▸ h, .inr ⟨rfl, ?_⟩⟩
  · intro d hd
    obtain ⟨⟨cell, k⟩, hmem, rfl⟩ := List.mem_map.mp hd
    refine ⟨cell, ?_, fun c hc => Cell.part_of_member? hc⟩
    rw [← Array.getElem?_toList]
    exact List.mem_zipIdx_iff_getElem?.mp hmem
  · rw [List.map_map, List.range_eq_range', rowCount, ← Array.length_toList,
      ← List.zipIdx_map_snd 0 v.rows.toList]
    rfl

/-- The items of a row are drawn from that row. -/
theorem itemsOf_drawn {cell : Cell} {k : Nat} (hrow : v.rows[k]? = some cell)
    (h : v.itemsOf cell (v.rowNumber k) = .ok w) :
    v.Drawn w := by
  unfold itemsOf at h
  have hpicks : (cell.elements.map fun item => (⟨k, some item⟩ : Draw)).map v.pick =
      cell.elements.map fun item => ⟨spanOf? item, v.rowNumber k⟩ := by
    rw [List.map_map]
    rfl
  refine ⟨cell.elements.map fun item => ⟨k, some item⟩, _, ?_, hpicks ▸ h, .inl ?_⟩
  · intro d hd
    obtain ⟨item, hitem, rfl⟩ := List.mem_map.mp hd
    refine ⟨cell, hrow, ?_⟩
    intro c hc
    cases hc
    exact Cell.part_of_mem_elements hitem
  · simp [Provenance.withRows, List.map_map, Function.comp_def]

theorem field_drawn {name : String} (h : v.field? name = .ok (some w)) : v.Drawn w := by
  unfold field? at h
  split at h
  · cases h
  split at h
  · cases h
  rename_i view hcolumn
  cases h
  exact column_drawn hcolumn

/-- Selecting and projecting at once is doing the one and then the other. -/
theorem subset_drawn {indices : Option (List Nat)} {name : Option String}
    (h : v.subset indices name = .ok (some w)) : Relation.ReflTransGen Drawn v w := by
  unfold subset at h
  dsimp only at h
  split at h
  · cases h
  rename_i selected hselected
  have hfirst : Relation.ReflTransGen Drawn v selected := by
    cases indices with
    | none =>
      cases hselected
      exact .refl
    | some indices => exact .single (select_drawn hselected)
  cases name with
  | none =>
    cases h
    exact hfirst
  | some name => exact hfirst.tail (field_drawn h)

theorem subscript_drawn {index : Nat} (h : v.subscript index = .ok w) : v.Drawn w := by
  unfold subscript at h
  split at h
  · exact select_drawn h
  · split at h
    · cases h
    · exact column_drawn h

/-- A field's column with its name. -/
def namedColumn (v : View) (field : Field) : Except Error (String × View) :=
  match v.column field.name (v.schema.name field.name) with
  | .error e => .error e
  | .ok view => .ok (v.schema.name field.name, view)

theorem collects_columnsOf (v : View) : Collects v.columnsOf v.namedColumn where
  nil := rfl
  cons field fields := by
    simp only [columnsOf, namedColumn]
    cases v.column field.name (v.schema.name field.name) with
    | error e => rfl
    | ok view => cases v.columnsOf fields <;> rfl

/-- The columns of some fields are made when each of them is. -/
theorem columnsOf_eq_ok_iff {fields : List Field} {views : List (String × View)} :
    v.columnsOf fields = .ok views ↔
      List.Forall₂ (fun field column => v.namedColumn field = .ok column) fields views :=
  v.collects_columnsOf.eq_ok_iff

theorem namedColumn_eq_ok_iff {field : Field} {column : String × View} :
    v.namedColumn field = .ok column ↔ v.schema.name field.name = column.1 ∧
      v.column field.name (v.schema.name field.name) = .ok column.2 := by
  unfold namedColumn
  cases v.column field.name (v.schema.name field.name) with
  | error e => simp
  | ok w => simp [Prod.ext_iff]

theorem collects_elementsOf (v : View) :
    Collects v.elementsOf fun row => v.itemsOf row.1 row.2 where
  nil := rfl
  cons row rows := by
    simp only [elementsOf]
    cases v.itemsOf row.1 row.2 with
    | error e => rfl
    | ok view => cases v.elementsOf rows <;> rfl

/-- The items of some rows are made when those of each row are. -/
theorem elementsOf_eq_ok_iff {rows : List (Cell × Nat)} {views : List View} :
    v.elementsOf rows = .ok views ↔
      List.Forall₂ (fun row view => v.itemsOf row.1 row.2 = .ok view) rows views :=
  v.collects_elementsOf.eq_ok_iff

theorem columnsOf_drawn {fields : List Field} {views : List (String × View)} {name : String}
    (h : v.columnsOf fields = .ok views) (hw : (name, w) ∈ views) : v.Drawn w := by
  obtain ⟨field, -, hcolumn⟩ := exists_of_forall₂ (columnsOf_eq_ok_iff.mp h) hw
  exact column_drawn (namedColumn_eq_ok_iff.mp hcolumn).2

theorem elementsOf_drawn {rows : List (Cell × Nat)} {views : List View}
    (hrows : ∀ row ∈ rows, row ∈ v.numberedRows) (h : v.elementsOf rows = .ok views)
    (hw : w ∈ views) : v.Drawn w := by
  obtain ⟨⟨cell, number⟩, hmem, hitems⟩ := exists_of_forall₂ (elementsOf_eq_ok_iff.mp h) hw
  obtain ⟨k, hrow, rfl⟩ := mem_numberedRows (hrows _ hmem)
  exact itemsOf_drawn hrow hitems

/-- **Every operation draws**, once or twice. -/
theorem Step.drawn (h : v.Step w) : Relation.ReflTransGen Drawn v w := by
  cases h with
  | select h => exact .single (select_drawn h)
  | field h => exact .single (field_drawn h)
  | subset h => exact subset_drawn h
  | subscript h => exact .single (subscript_drawn h)
  | columns h hw => exact .single (columnsOf_drawn h hw)
  | elements h hw => exact .single (elementsOf_drawn (fun _ hr => hr) h hw)

/-- **Induction on chains**: what holds of a view and is kept by draws holds of every view that
comes from it. -/
theorem Chain.induction {P : View → Prop} (h : v.Chain w) (hv : P v)
    (hdraw : ∀ {v w : View}, P v → v.Drawn w → P w) : P w := by
  have hdrawn : Relation.ReflTransGen Drawn v w := by
    induction h with
    | refl => exact .refl
    | tail _ hstep ih => exact ih.trans hstep.drawn
  clear h
  induction hdrawn with
  | refl => exact hv
  | tail _ hstep ih => exact hdraw ih hstep

end JsonLines.View
