/-
JsonLines.Proofs.Dataset.Failures — what an operation on a view may fail for.

A view reads its source again, by a scanner that can refuse a text for many reasons. None of them
comes up: what a view stores was accepted when it was gathered, and so are its parts, so an
operation can only ask for a row or a field that is not there, or for more rows than the limit
allows (`exists_regather`, `regather_of_lt_length`). Which of the two it is, and with what numbers,
is told exactly for each operation of every view in a chain (`fails_for_cause`).
-/
import JsonLines.Proofs.Dataset.Outcome
import JsonLines.Proofs.Dataset.ViewTypes

namespace JsonLines

namespace View

/-- The most rows that the limits of a view allow. -/
def rowLimit (v : View) : Nat := Contents.rowLimit v.config.limits

/-- The view has a row of this number; rows are numbered from one. -/
def HasRow (v : View) (i : Nat) : Prop := 1 ≤ i ∧ i ≤ v.rowCount

variable {v w root : View} {cells : List Cell} {cell : Cell} {picks : List Pick}
  {provenance : Provenance} {indices : List Nat} {fields : List Field} {i k : Nat} {e : Error}

/-! ## Gathering what is stored -/

/-- More than the limits allow are too many. -/
theorem regather_of_lt_length (h : v.Regathers picks cells) (hlength : v.rowLimit < picks.length) :
    v.regather provenance picks = .error (.capacityExceeded (v.rowLimit + 1) v.rowLimit) := by
  have hgather := Contents.gather_of_lt_length h.accepted hlength
  rw [regather, hgather]
  rfl

/-- Stored cells fail to be gathered for their number alone. -/
theorem regather_eq_error_iff (h : v.Regathers picks cells) :
    v.regather provenance picks = .error e ↔
      e = .capacityExceeded (v.rowLimit + 1) v.rowLimit ∧ v.rowLimit < picks.length := by
  constructor
  · intro herror
    by_cases hlength : v.rowLimit < picks.length
    · rw [regather_of_lt_length h hlength] at herror
      cases herror
      exact ⟨rfl, hlength⟩
    · have hok : ∃ w, v.regather provenance picks = .ok w :=
        exists_regather h (Nat.le_of_not_lt hlength)
      obtain ⟨w, hw⟩ := hok
      cases hw.symm.trans herror
  · intro hcause
    rw [hcause.1]
    exact regather_of_lt_length h hcause.2

/-- Whatever is gathered, it fails for a text or for the number of rows. -/
theorem regather_error_cases (h : v.regather provenance picks = .error e) :
    (∃ row cause, e = .malformedRecord row cause) ∨
      ∃ size limit, e = .capacityExceeded size limit := by
  unfold regather Contents.gather at h
  cases hall : (Contents.Gathering.start v.config.limits).addAll v.source v.config.limits picks with
  | error e' =>
    simp only [hall] at h
    cases h
    exact Contents.addAll_error_cases hall
  | ok g => simp [hall] at h

/-! ## Selecting rows -/

/-- The row of a number, absent if there is none. -/
def rowAt (v : View) (i : Nat) : Cell := (v.rows[i - 1]?).getD .absent

/-- What is picked for the row of a number. -/
def rowPick (v : View) (i : Nat) : Pick := ⟨(v.rows[i - 1]?).bind spanOf?, v.rowNumber (i - 1)⟩

theorem rowPick_eq (v : View) (i : Nat) :
    v.rowPick i = ⟨spanOf? (v.rowAt i), v.rowNumber (i - 1)⟩ := by
  rw [rowPick, bind_spanOf?, rowAt]

/-- The row map of a selection. -/
def selected (v : View) (indices : List Nat) : Provenance :=
  v.provenance.withRows (indices.map fun i => v.rowNumber (i - 1)).toArray

theorem outside_iff : (i == 0 || decide (v.rowCount < i)) = true ↔ ¬ v.HasRow i := by
  unfold HasRow
  simp only [Bool.or_eq_true, beq_iff_eq, decide_eq_true_eq]
  omega

/-- Selecting rows that are there gathers them. -/
theorem select_of_hasRow (h : ∀ i ∈ indices, v.HasRow i) :
    v.select indices = v.regather (v.selected indices) (indices.map v.rowPick) := by
  have hfind : indices.find? (fun i => i == 0 || decide (v.rowCount < i)) = none := by
    rw [List.find?_eq_none]
    intro i hi houtside
    exact outside_iff.mp houtside (h i hi)
  unfold select
  simp only [hfind, List.map_map]
  rfl

/-- Selecting ends at the first row that is not there. -/
theorem select_of_outside {before after : List Nat} {index : Nat}
    (hbefore : ∀ i ∈ before, v.HasRow i) (h : ¬ v.HasRow index) :
    v.select (before ++ index :: after) = .error (.indexOutOfRange index v.rowCount) := by
  have hfind : (before ++ index :: after).find? (fun i => i == 0 || decide (v.rowCount < i)) =
      some index := by
    rw [List.find?_eq_some_iff_append]
    refine ⟨outside_iff.mpr h, before, after, rfl, ?_⟩
    intro i hi
    rw [Bool.not_eq_true', ← Bool.not_eq_true, outside_iff, not_not]
    exact hbefore i hi
  unfold select
  simp only [hfind]

/-- All rows of some numbers are there, or one of them is the first that is not. -/
theorem hasRow_or_outside (v : View) (indices : List Nat) : (∀ i ∈ indices, v.HasRow i) ∨
    ∃ before index after, indices = before ++ index :: after ∧
      (∀ i ∈ before, v.HasRow i) ∧ ¬ v.HasRow index := by
  induction indices with
  | nil => exact .inl (by simp)
  | cons index indices ih =>
    by_cases hindex : v.HasRow index
    · rcases ih with hall | ⟨before, i, after, rfl, hbefore, hi⟩
      · exact .inl (List.forall_mem_cons.mpr ⟨hindex, hall⟩)
      · exact .inr ⟨index :: before, i, after, rfl, List.forall_mem_cons.mpr ⟨hindex, hbefore⟩, hi⟩
    · exact .inr ⟨[], index, indices, rfl, by simp, hindex⟩

/-- When a selection succeeds, the rows are there and are gathered. -/
theorem select_eq_ok_iff : v.select indices = .ok w ↔ (∀ i ∈ indices, v.HasRow i) ∧
    v.regather (v.selected indices) (indices.map v.rowPick) = .ok w := by
  constructor
  · intro h
    rcases v.hasRow_or_outside indices with hall | ⟨before, index, after, rfl, hbefore, hindex⟩
    · exact ⟨hall, select_of_hasRow hall ▸ h⟩
    · rw [select_of_outside hbefore hindex] at h
      cases h
  · intro h
    rw [select_of_hasRow h.1]
    exact h.2

/-- Rows that are there are never refused as rows that are not, whatever the view. -/
theorem select_ne_indexOutOfRange (h : ∀ i ∈ indices, v.HasRow i) (index len : Nat) :
    v.select indices ≠ .error (.indexOutOfRange index len) := by
  intro hselect
  rw [select_of_hasRow h] at hselect
  rcases regather_error_cases hselect with ⟨row, cause, he⟩ | ⟨size, limit, he⟩ <;> cases he

theorem sound_of_select (h : v.select indices = .ok w) : w.Sound :=
  sound_of_regather (select_eq_ok_iff.mp h).2

theorem Sound.stores_rowAt (hv : v.Sound) (i : Nat) : v.Stores (v.rowAt i) := by
  unfold rowAt
  cases hrow : v.rows[i - 1]? with
  | none => exact .inl rfl
  | some row => exact hv.stores row (Array.mem_toList_iff.mpr (Array.mem_of_getElem? hrow))

theorem Sound.regathers_rows (hv : v.Sound) (indices : List Nat) :
    v.Regathers (indices.map v.rowPick) (indices.map v.rowAt) :=
  regathers_map fun i _ => ⟨bind_spanOf? _, hv.stores_rowAt i⟩

/-- Selecting more rows than the limit allows, all of which are there. -/
theorem select_of_exceeded (hv : v.Sound) (h : ∀ i ∈ indices, v.HasRow i)
    (hlength : v.rowLimit < indices.length) :
    v.select indices = .error (.capacityExceeded (v.rowLimit + 1) v.rowLimit) := by
  rw [select_of_hasRow h]
  exact regather_of_lt_length (hv.regathers_rows indices) (by rwa [List.length_map])

/-- **A selection succeeds** if the rows are there and within the limit. -/
theorem exists_select (hv : v.Sound) (h : ∀ i ∈ indices, v.HasRow i)
    (hlength : indices.length ≤ v.rowLimit) : ∃ w, v.select indices = .ok w := by
  rw [select_of_hasRow h]
  exact exists_regather (hv.regathers_rows indices) (by rwa [List.length_map])

/-- One row can be selected when it is there: the limit allowed it once. -/
theorem select_singleton_eq_error_iff (hv : v.Sound) :
    v.select [k] = .error e ↔ e = .indexOutOfRange k v.rowCount ∧ ¬ v.HasRow k := by
  by_cases hk : v.HasRow k
  · have hcount : v.rowCount ≤ v.rowLimit := hv.count_le
    have hlimit : [k].length ≤ v.rowLimit := by
      have := hk.1
      have := hk.2
      rw [List.length_singleton]
      omega
    obtain ⟨w, hw⟩ := exists_select hv (List.forall_mem_singleton.mpr hk) hlimit
    rw [hw]
    simp [hk]
  · have herror : v.select [k] = .error (.indexOutOfRange k v.rowCount) :=
      select_of_outside (List.forall_mem_nil _) hk
    rw [herror]
    simp [hk, eq_comm]

/-! ## Projecting -/

/-- **A projection by name never fails.** -/
theorem exists_field (hv : v.Sound) (name : String) : ∃ w?, v.field? name = .ok w? := by
  unfold field?
  cases v.schema.nameId? name with
  | none => exact ⟨none, rfl⟩
  | some n =>
    obtain ⟨w, hw⟩ := exists_column hv n name
    exact ⟨some w, by simp only [hw]⟩

/-- A field of a record dataset is refused for its number alone. -/
theorem subscript_record_eq_error_iff (hv : v.Sound) (hfields : v.fields? = some fields) :
    v.subscript k = .error e ↔
      e = .indexOutOfRange k fields.length ∧ ¬ (1 ≤ k ∧ k ≤ fields.length) := by
  unfold subscript
  simp only [hfields]
  cases hfield : if k = 0 then none else fields[k - 1]? with
  | none =>
    have hk : ¬ (1 ≤ k ∧ k ≤ fields.length) := by
      rintro ⟨hpos, hle⟩
      rw [if_neg (by omega), List.getElem?_eq_none_iff] at hfield
      omega
    simp [hk, eq_comm]
  | some field =>
    have hk : 1 ≤ k ∧ k ≤ fields.length := by
      by_cases hzero : k = 0
      · simp [hzero] at hfield
      · rw [if_neg hzero] at hfield
        obtain ⟨hlt, -⟩ := List.getElem?_eq_some_iff.mp hfield
        omega
    obtain ⟨w, hw⟩ := exists_column hv field.name (v.schema.name field.name)
    simp [hw, hk]

/-- A row of any other dataset, too. -/
theorem subscript_rows_eq_error_iff (hv : v.Sound) (hfields : v.fields? = none) :
    v.subscript k = .error e ↔ e = .indexOutOfRange k v.rowCount ∧ ¬ v.HasRow k := by
  have hselect : v.subscript k = v.select [k] := by
    unfold subscript
    rw [hfields]
  rw [hselect]
  exact select_singleton_eq_error_iff hv

/-! ## Items -/

/-- The items of a row fail for their number alone. -/
theorem itemsOf_eq_error_iff (h : v.Stores cell) : v.itemsOf cell k = .error e ↔
    e = .capacityExceeded (v.rowLimit + 1) v.rowLimit ∧ v.rowLimit < cell.elements.length := by
  rw [itemsOf, regather_eq_error_iff (h.regathers_items k), List.length_map]

theorem elements_error (hv : v.Sound) (h : v.elements = .error e) :
    e = .capacityExceeded (v.rowLimit + 1) v.rowLimit ∧
      ∃ row ∈ v.rows.toList, v.rowLimit < row.elements.length := by
  obtain ⟨r, hr, hitems⟩ := v.collects_elementsOf.exists_of_eq_error h
  obtain ⟨he, hlength⟩ := (itemsOf_eq_error_iff (hv.stores_of_numbered hr)).mp hitems
  exact ⟨he, r.1, map_fst_numberedRows v ▸ List.mem_map_of_mem hr, hlength⟩

/-- **The items of the rows fail for a row that has too many of them.** -/
theorem elements_eq_error_iff (hv : v.Sound) : v.elements = .error e ↔
    e = .capacityExceeded (v.rowLimit + 1) v.rowLimit ∧
      ∃ row ∈ v.rows.toList, v.rowLimit < row.elements.length := by
  constructor
  · exact elements_error hv
  · rintro ⟨rfl, row, hrow, hlength⟩
    cases helements : v.elements with
    | error e => rw [(elements_error hv helements).1]
    | ok views =>
      rw [← map_fst_numberedRows] at hrow
      obtain ⟨r, hr, rfl⟩ := List.mem_map.mp hrow
      have herror := (itemsOf_eq_error_iff (k := r.2) (hv.stores_of_numbered hr)).mpr ⟨rfl, hlength⟩
      obtain ⟨w, -, hw⟩ := exists_of_forall₂ (elementsOf_eq_ok_iff.mp helements).flip hr
      cases herror.symm.trans hw

/-- Only arrays have items. -/
theorem exists_elements_iff {rows : List Cell} {n : Nat} :
    (∃ row ∈ rows, n < row.elements.length) ↔
      ∃ span type cells, Cell.array span type cells ∈ rows ∧ n < cells.length := by
  constructor
  · rintro ⟨row, hrow, hlength⟩
    cases row with
    | array span type cells => exact ⟨span, type, cells, hrow, hlength⟩
    | leaf => simp [Cell.elements] at hlength
    | record => simp [Cell.elements] at hlength
  · rintro ⟨span, type, cells, hrow, hlength⟩
    exact ⟨_, hrow, hlength⟩

/-! ## The causes of failures -/

/-- An operation on the view ends with the error. -/
inductive Fails (v : View) (e : Error) : Prop where
  | select {indices : List Nat} : v.select indices = .error e → Fails v e
  | field {name : String} : v.field? name = .error e → Fails v e
  | subset {indices : Option (List Nat)} {name : Option String} : v.subset indices name = .error e →
    Fails v e
  | subscript {index : Nat} : v.subscript index = .error e → Fails v e
  | columns : v.columns = .error e → Fails v e
  | elements : v.elements = .error e → Fails v e

/-- Every operation on the view fails for a cause of its own, if it fails. -/
structure FailsForCause (v : View) : Prop where
  /-- A selection fails for the first row that is not there. -/
  select_outside : ∀ before index after, (∀ i ∈ before, v.HasRow i) → ¬ v.HasRow index →
    v.select (before ++ index :: after) = .error (.indexOutOfRange index v.rowCount)
  /-- Otherwise it fails for the number of rows. -/
  select_exceeded : ∀ indices, (∀ i ∈ indices, v.HasRow i) → v.rowLimit < indices.length →
    v.select indices = .error (.capacityExceeded (v.rowLimit + 1) v.rowLimit)
  /-- Otherwise it succeeds. -/
  select_ok : ∀ indices, (∀ i ∈ indices, v.HasRow i) → indices.length ≤ v.rowLimit →
    ∃ w, v.select indices = .ok w
  field_ok : ∀ name, ∃ w?, v.field? name = .ok w?
  columns_ok : ∃ views, v.columns = .ok views
  /-- Selecting and projecting at once fails for the selection. -/
  subset_error : ∀ indices? name? e, v.subset indices? name? = .error e ↔
    ∃ indices, indices? = some indices ∧ v.select indices = .error e
  /-- A number stands for a field of a record dataset. -/
  subscript_record : ∀ fields, v.fields? = some fields → ∀ k e, v.subscript k = .error e ↔
    e = .indexOutOfRange k fields.length ∧ ¬ (1 ≤ k ∧ k ≤ fields.length)
  /-- It stands for a row of any other dataset. -/
  subscript_rows : v.fields? = none → ∀ k e, v.subscript k = .error e ↔
    e = .indexOutOfRange k v.rowCount ∧ ¬ v.HasRow k
  /-- Items fail for a row that has more of them than there may be rows. -/
  elements_error : ∀ e, v.elements = .error e ↔
    e = .capacityExceeded (v.rowLimit + 1) v.rowLimit ∧
      ∃ span type cells, Cell.array span type cells ∈ v.rows ∧ v.rowLimit < cells.length
  /-- No stored text is found to be malformed. -/
  not_malformed : ∀ row cause, ¬ v.Fails (.malformedRecord row cause)

theorem exists_columns_eq_ok (hv : v.Sound) : ∃ views, v.columns = .ok views :=
  exists_columns hv (v.fields?.getD [])

/-- With no rows selected there is only a projection, which never fails. -/
theorem exists_subset (hv : v.Sound) (name? : Option String) :
    ∃ w?, v.subset none name? = .ok w? := by
  unfold subset
  cases name? with
  | none => exact ⟨some v, rfl⟩
  | some name => exact exists_field hv name

/-- A selection comes first: it fails, or the projection is that of the selected rows. -/
theorem subset_of_select (name? : Option String) : v.subset (some indices) name? =
    match v.select indices with
    | .error e => .error e
    | .ok w => w.subset none name? := by
  unfold subset
  cases hselect : v.select indices <;> simp only [hselect]

theorem subset_eq_error_iff (hv : v.Sound) {indices? : Option (List Nat)}
    {name? : Option String} :
    v.subset indices? name? = .error e ↔
      ∃ indices, indices? = some indices ∧ v.select indices = .error e := by
  cases indices? with
  | none =>
    obtain ⟨w?, hw⟩ := exists_subset hv name?
    simp [hw]
  | some indices =>
    rw [subset_of_select]
    cases hselect : v.select indices with
    | error e' => simp [hselect]
    | ok w =>
      obtain ⟨w?, hw⟩ := exists_subset (sound_of_select hselect) name?
      simp [hselect, hw]

/-- What a selection can fail for. -/
theorem select_error_cases (hv : v.Sound) (h : v.select indices = .error e) :
    (∃ index, e = .indexOutOfRange index v.rowCount) ∨
      e = .capacityExceeded (v.rowLimit + 1) v.rowLimit := by
  rcases v.hasRow_or_outside indices with hall | ⟨before, index, after, rfl, hbefore, hindex⟩
  · by_cases hlength : v.rowLimit < indices.length
    · rw [select_of_exceeded hv hall hlength] at h
      cases h
      exact .inr rfl
    · obtain ⟨w, hw⟩ := exists_select hv hall (Nat.le_of_not_lt hlength)
      cases hw.symm.trans h
  · rw [select_of_outside hbefore hindex] at h
    cases h
    exact .inl ⟨index, rfl⟩

/-- What any operation can fail for. -/
theorem Fails.error_cases (hv : v.Sound) (h : v.Fails e) :
    (∃ index len, e = .indexOutOfRange index len) ∨
      e = .capacityExceeded (v.rowLimit + 1) v.rowLimit := by
  have hselect : ∀ {indices}, v.select indices = .error e →
      (∃ index len, e = .indexOutOfRange index len) ∨
        e = .capacityExceeded (v.rowLimit + 1) v.rowLimit := by
    intro indices h
    exact (select_error_cases hv h).imp_left fun ⟨index, h⟩ => ⟨index, v.rowCount, h⟩
  cases h with
  | select h => exact hselect h
  | @field name h =>
    obtain ⟨w?, hw⟩ := exists_field hv name
    cases hw.symm.trans h
  | subset h =>
    obtain ⟨indices, -, h⟩ := (subset_eq_error_iff hv).mp h
    exact hselect h
  | @subscript k h =>
    cases hfields : v.fields? with
    | none => exact .inl ⟨k, _, ((subscript_rows_eq_error_iff hv hfields).mp h).1⟩
    | some fields => exact .inl ⟨k, _, ((subscript_record_eq_error_iff hv hfields).mp h).1⟩
  | columns h =>
    obtain ⟨views, hviews⟩ := exists_columns_eq_ok hv
    cases hviews.symm.trans h
  | elements h => exact .inr (elements_error hv h).1

/-- **Operations on views fail for causes of their own**, whatever chain led to the view. -/
theorem fails_for_cause {source : ByteSource} {config : Config}
    (hroot : load source config = .ok root) (h : root.Chain v) : v.FailsForCause := by
  have hv : v.Sound := sound_chain hroot h
  refine {
    select_outside := fun _ _ _ => select_of_outside
    select_exceeded := fun _ => select_of_exceeded hv
    select_ok := fun _ => exists_select hv
    field_ok := exists_field hv
    columns_ok := exists_columns_eq_ok hv
    subset_error := fun _ _ _ => subset_eq_error_iff hv
    subscript_record := fun _ hfields _ _ => subscript_record_eq_error_iff hv hfields
    subscript_rows := fun hfields _ _ => subscript_rows_eq_error_iff hv hfields
    elements_error := fun e => ?_
    not_malformed := fun row cause h => ?_ }
  · rw [elements_eq_error_iff hv, exists_elements_iff]
    simp only [Array.mem_toList_iff]
  · rcases h.error_cases hv with ⟨index, len, h⟩ | h
    · cases h
    · cases h

/-- A record with one item and a record with three. -/
def unevenArrays : ByteSource := .ofString "[1]\n[2,3,4]\n"

/-- A limit that the records themselves reach, and the items of one of them exceed. -/
def twoRows : Config := { limits := { maxRows := some 2 } }

/-- The selected row is an array of three items, where two rows are allowed. -/
theorem fails_for_cause_unevenArrays : ∃ root v, load unevenArrays twoRows = .ok root ∧
    root.Chain v ∧ v.rows.toList.map (fun row => row.elements.length) = [3] ∧ v.rowLimit = 2 ∧
      v.FailsForCause := by
  have hrun : ((load unevenArrays twoRows).toOption.bind fun root =>
      (root.select [2]).toOption.map fun v =>
        (v.rows.toList.map fun row => row.elements.length, v.rowLimit)) = some ([3], 2) := by
    decide +kernel
  obtain ⟨root, hload, hrun⟩ := Option.bind_eq_some_iff.mp hrun
  obtain ⟨v, hselect, hv⟩ := Option.map_eq_some_iff.mp hrun
  obtain ⟨hlengths, hlimit⟩ := Prod.mk.inj hv
  have hroot := eq_ok_of_toOption hload
  have hchain : root.Chain v := .single (.select (eq_ok_of_toOption hselect))
  exact ⟨root, v, hroot, hchain, hlengths, hlimit, fails_for_cause hroot hchain⟩

end View

end JsonLines
