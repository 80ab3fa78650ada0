/-
JsonLines.Proofs.Command.Showing — when the rows of a view can be shown as values.

Scalars are shown as what they are converted to, and what does not convert is shown as null. Arrays
are shown as the values of their items, each in a view of its own, and so on down (`Unfolds`). Only
records and mixed values are read as JSON values, and there showing asks for more than loading did:
numbers within the range of doubles, texts that spell characters, fewer than 128 containers around
each other, where a load allows 128, and of an object that begins with the name for the text of
another value, that it holds such a text and nothing else. So a record that loads can keep all rows
from being shown. `shows_chain` says when this happens, and that there is one value for each row
otherwise.

The views that unfold out of a view are shown with less and less room, one for each array around
them. `Shallow` is the invariant that keeps room from running out: whatever a row reads as nests
less deep than there is room, so the last views are those without rows.
-/
import JsonLines.Command.Report
import JsonLines.Proofs.Coercion.Simplifying
import JsonLines.Proofs.Scan.Denotation
import JsonLines.Proofs.Scan.ParseTree

namespace JsonLines.View

open Json Json.Value

variable {root v w x y : View} {views : List View} {row c : Cell} {room : Nat}
  {values : List Value}

/-! ## Views inside views -/

/-- The second view is the first one, or the items of a row of it, or the items of a row of those,
and so on, as long as arrays are shown as their items. -/
inductive Unfolds : View → View → Prop where
  | self {v : View} : Unfolds v v
  | items {v y x : View} {views : List View} : v.kind = .array → v.elements = .ok views →
    y ∈ views → Unfolds y x → Unfolds v x

theorem forall_unfolds_iff {P : View → Prop} : (∀ x, v.Unfolds x → P x) ↔ P v ∧
    (v.kind = .array → ∀ views, v.elements = .ok views → ∀ y ∈ views, ∀ x, y.Unfolds x → P x) := by
  constructor
  · intro h
    exact ⟨h v .self, fun hkind views hviews y hy x hx => h x (.items hkind hviews hy hx)⟩
  · rintro ⟨hself, hitems⟩ x hx
    cases hx with
    | self => exact hself
    | items hkind hviews hy hx => exact hitems hkind _ hviews _ hy x hx

/-! ## Texts that are shown -/

/-- The row is not there, or reads as a value that can be read for itself. -/
def RowShowable (v : View) (row : Cell) : Prop :=
  ∀ span, spanOf? row = some span → ∀ m, Scanner.readTree v.source span = .ok m →
    m.Legible ∧ m.nesting < nestingLimit

/-- The items of arrays fit, and the texts of records and mixed values can be read. -/
structure Showable (v : View) : Prop where
  fits : v.ItemsFit
  legible : v.kind = .record ∨ v.kind = .any → ∀ row ∈ v.rows.toList, v.RowShowable row

/-- The text of a row, none if it is not there. -/
def jsonText? (v : View) (row : Cell) : Option String :=
  if row.isAbsent then none else (v.textOf? row).map String.ofList

/-- The value of a text, null if there is none. -/
def valueOfText : Option String → Except Error Value
  | none => .ok .null
  | some text =>
    match Value.parse text.toList with
    | .error fault => .error (.malformedJson fault)
    | .ok value => .ok value

theorem collects_valuesOfTexts : Collects valuesOfTexts valueOfText where
  nil := rfl
  cons text? texts := by
    cases text? with
    | none =>
      rw [valuesOfTexts, valueOfText]
      cases valuesOfTexts texts <;> rfl
    | some text =>
      rw [valuesOfTexts, valueOfText]
      cases Value.parse text.toList with
      | error fault => rfl
      | ok value => cases valuesOfTexts texts <;> rfl

theorem exists_valueOfText_iff {text : String} :
    (∃ value, valueOfText (some text) = .ok value) ↔
      ∃ value, Value.parse text.toList = .ok value := by
  rw [valueOfText]
  cases Value.parse text.toList <;> simp

/-- The text of a row that is stored is read when the row can be shown. -/
theorem exists_valueOfText_row_iff (h : v.Stores row) :
    (∃ value, valueOfText (v.jsonText? row) = .ok value) ↔ v.RowShowable row := by
  cases habsent : row.isAbsent with
  | true =>
    rw [jsonText?, habsent, RowShowable, spanOf?, habsent]
    simp [valueOfText]
  | false =>
    have hspan : spanOf? row = some row.span := by
      rw [spanOf?, habsent]
      rfl
    obtain ⟨m, hread, -⟩ := h.exists_read hspan
    obtain ⟨-, text, hslice, -⟩ := readTree_eq_ok_iff.mp hread
    have htext : v.jsonText? row = some (String.ofList text) := by
      rw [jsonText?, habsent, textOf?, bytesOf, hslice, Utf8.decode_utf8Encode]
      rfl
    rw [htext, exists_valueOfText_iff, String.toList_ofList,
      exists_parse_iff hread hslice, RowShowable, hspan]
    constructor
    · rintro hm span hs m' hread'
      cases hs
      cases hread.symm.trans hread'
      exact hm
    · intro hm
      exact hm _ rfl m hread

theorem exists_valuesOfTexts_iff (hv : v.Sound) :
    (∃ values, valuesOfTexts v.toJsonText = .ok values) ↔
      ∀ row ∈ v.rows.toList, v.RowShowable row := by
  have htexts : v.toJsonText = v.rows.toList.map v.jsonText? := rfl
  rw [htexts, collects_valuesOfTexts.exists_iff, List.forall_mem_map]
  exact forall₂_congr fun row hrow => exists_valueOfText_row_iff (hv.stores row hrow)

/-! ## Views that are shown -/

/-- A view as an array of its values. -/
def arrayOf (show? : View → Except Error (List Value)) (w : View) : Except Error Value :=
  match show? w with
  | .error e => .error e
  | .ok items => .ok (.array items)

theorem collects_arraysOf (show? : View → Except Error (List Value)) :
    Collects (arraysOf show?) (arrayOf show?) where
  nil := rfl
  cons w views := by
    rw [arraysOf, arrayOf]
    cases show? w with
    | error e => rfl
    | ok items => cases arraysOf show? views <;> rfl

theorem exists_arraysOf_iff {show? : View → Except Error (List Value)} :
    (∃ values, arraysOf show? views = .ok values) ↔
      ∀ w ∈ views, ∃ values, show? w = .ok values := by
  rw [(collects_arraysOf show?).exists_iff]
  refine forall₂_congr fun w _ => ?_
  rw [arrayOf]
  cases show? w <;> simp

theorem valuesWithin_of_array (hkind : v.kind = .array) (hviews : v.elements = .ok views) :
    valuesWithin (room + 1) v = arraysOf (valuesWithin room) views := by
  rw [valuesWithin, simplify, hkind, hviews]

/-- Records and mixed values are written as they stand. -/
theorem valuesWithin_of_text (hkind : v.kind = .record ∨ v.kind = .any) :
    valuesWithin (room + 1) v = valuesOfTexts v.toJsonText := by
  rcases hkind with hkind | hkind <;> rw [valuesWithin, simplify, hkind]

/-- Anything else is converted, and every row has an outcome. -/
theorem exists_valuesWithin_of_scalar (room : Nat) (harray : v.kind ≠ .array)
    (hrecord : v.kind ≠ .record) (hany : v.kind ≠ .any) :
    ∃ values, valuesWithin (room + 1) v = .ok values ∧ values.length = v.rowCount := by
  unfold valuesWithin simplify
  cases hkind : v.kind with
  | array => exact absurd hkind harray
  | record => exact absurd hkind hrecord
  | any => exact absurd hkind hany
  | integer =>
    cases v.widens with
    | true => exact ⟨_, rfl, by rw [List.length_map, toReal, length_coerce]⟩
    | false => exact ⟨_, rfl, by rw [List.length_map, toInteger, length_coerce]⟩
  | null | boolean => exact ⟨_, rfl, by rw [List.length_map, toBoolean, length_coerce]⟩
  | real => exact ⟨_, rfl, by rw [List.length_map, toReal, length_coerce]⟩
  | text => exact ⟨_, rfl, by rw [List.length_map, toText, length_coerce]⟩

/-- **One level of a view**: the view itself can be shown, and so can the items of its rows if they
are shown as items. -/
theorem exists_valuesWithin_succ_iff (hv : v.Sound) :
    (∃ values, valuesWithin (room + 1) v = .ok values) ↔
      v.Showable ∧ (v.kind = .array → ∀ views, v.elements = .ok views →
        ∀ y ∈ views, ∃ values, valuesWithin room y = .ok values) := by
  by_cases harray : v.kind = .array
  · have hlegible : ¬ (v.kind = .record ∨ v.kind = .any) := by simp [harray]
    cases helements : v.elements with
    | error e =>
      have herror : v.simplify = .error e := by rw [simplify, harray, helements]
      refine iff_of_false (by simp [valuesWithin, herror]) ?_
      rintro ⟨hshowable, -⟩
      exact ((simplify_eq_error_iff hv).mp herror).2 hshowable.fits
    | ok views =>
      have hsimplify : v.simplify = .ok (.list views) := by rw [simplify, harray, helements]
      have hshowable : v.Showable :=
        ⟨(exists_simplify_iff hv).mp ⟨_, hsimplify⟩, fun hkind => absurd hkind hlegible⟩
      rw [valuesWithin_of_array harray helements, exists_arraysOf_iff, and_iff_right hshowable]
      simp only [harray, Except.ok.injEq, forall_const, forall_eq']
  have hfits : v.ItemsFit := fun hkind => absurd hkind harray
  by_cases htext : v.kind = .record ∨ v.kind = .any
  · rw [valuesWithin_of_text htext, exists_valuesOfTexts_iff hv]
    constructor
    · intro h
      exact ⟨⟨hfits, fun _ => h⟩, fun hkind => absurd hkind harray⟩
    · intro h
      exact h.1.legible htext
  · obtain ⟨hrecord, hany⟩ := not_or.mp htext
    obtain ⟨values, hvalues, -⟩ :=
      exists_valuesWithin_of_scalar room harray hrecord hany
    exact iff_of_true ⟨values, hvalues⟩
      ⟨⟨hfits, fun hkind => absurd hkind htext⟩, fun hkind => absurd hkind harray⟩

/-- There is one value for each row. -/
theorem length_valuesWithin_succ (h : valuesWithin (room + 1) v = .ok values) :
    values.length = v.rowCount := by
  by_cases harray : v.kind = .array
  · cases helements : v.elements with
    | error e => simp [valuesWithin, simplify, harray, helements] at h
    | ok views =>
      rw [valuesWithin_of_array harray helements, (collects_arraysOf _).eq_ok_iff] at h
      rw [← h.length_eq, length_elements helements]
  by_cases htext : v.kind = .record ∨ v.kind = .any
  · rw [valuesWithin_of_text htext, collects_valuesOfTexts.eq_ok_iff] at h
    rw [← h.length_eq, toJsonText, List.length_map, Array.length_toList, rowCount]
  · obtain ⟨hrecord, hany⟩ := not_or.mp htext
    obtain ⟨values', hvalues, hlength⟩ :=
      exists_valuesWithin_of_scalar room harray hrecord hany
    cases h.symm.trans hvalues
    exact hlength

/-! ## Room -/

/-- There are rows only if there is room, and whatever a row reads as nests less deep than that. -/
def Shallow (room : Nat) (v : View) : Prop :=
  ∀ row ∈ v.rows.toList, 0 < room ∧ ∀ span, spanOf? row = some span →
    ∀ m, Scanner.readTree v.source span = .ok m → m.nesting < room

/-- What is stored nests no deeper than the limit says. -/
theorem Sound.shallow (hv : v.Sound) : Shallow (v.config.limits.maxDepth + 1) v := by
  intro row hrow
  refine ⟨Nat.succ_pos _, fun span hspan m hread => ?_⟩
  obtain ⟨m', hread', -, -, hdepth⟩ := (hv.stores row hrow).exists_read hspan
  cases hread.symm.trans hread'
  exact Nat.lt_succ_of_le hdepth

/-- An item of a stored row reads as an item of the array that the row reads as. -/
theorem Stores.exists_item (h : v.Stores row) (hc : c ∈ row.elements) :
    ∃ span items item, spanOf? row = some span ∧
      Scanner.readTree v.source span = .ok (.array span items) ∧ item ∈ items ∧
        spanOf? c = some item.span ∧ Scanner.readTree v.source item.span = .ok item := by
  rcases h with rfl | ⟨m, hscanned, hread, -⟩
  · cases hc
  have hspan := spanOf?_of_scanned hscanned hread
  cases m with
  | array span items =>
    obtain ⟨type, cells, element, rfl, hitems, -⟩ := hscanned
    obtain ⟨item, hitem, hscanned⟩ := hitems.exists_item hc
    have hread' := (readTree_part hread (.item hitem .self)).1
    exact ⟨span, items, item, hspan, hread, hitem, spanOf?_of_scanned hscanned hread', hread'⟩
  | object span members =>
    obtain ⟨type, cells, fields, rfl, -⟩ := hscanned
    cases hc
  | _ =>
    simp only [Scanned] at hscanned
    subst hscanned
    cases hc

/-- **The items of rows nest less deep than the rows.** -/
theorem Shallow.of_elements (h : Shallow (room + 1) v) (hv : v.Sound)
    (hviews : v.elements = .ok views) (hy : y ∈ views) : y.Sound ∧ Shallow room y := by
  obtain ⟨r, hr, hitems⟩ := exists_of_forall₂ (elementsOf_eq_ok_iff.mp hviews) hy
  have hstores := hv.stores_of_numbered hr
  have hrow : r.1 ∈ v.rows.toList := map_fst_numberedRows v ▸ List.mem_map_of_mem hr
  have hgathered := (hstores.regathers_items r.2).regathered hitems
  refine ⟨hgathered.sound, fun row' hrow' => ?_⟩
  obtain ⟨c, hc, hcounterparts⟩ := exists_of_forall₂ hgathered.counterparts hrow'
  obtain ⟨span, items, item, hspan, hread, hitem, hspan', hread'⟩ := hstores.exists_item hc
  -- The row of the new view reads as an item of what the row of the old one reads as.
  have hnesting : item.nesting < room := by
    have harray := (h r.1 hrow).2 span hspan _ hread
    have hle := nestingOfItems_le_iff.mp (Nat.le_refl _) item hitem
    rw [Node.nesting] at harray
    omega
  refine ⟨Nat.zero_lt_of_lt hnesting, fun span₁ hspan₁ m hm => ?_⟩
  rw [hcounterparts.spanOf?_eq, hspan'] at hspan₁
  cases hspan₁
  rw [hgathered.source_eq] at hm
  cases hread'.symm.trans hm
  exact hnesting

/-- A view without room has no rows, and nothing to show. -/
theorem Shallow.showable_of_unfolds (h : Shallow 0 v) (hx : v.Unfolds x) : x.Showable := by
  have hrows : v.rows.toList = [] := by
    rw [List.eq_nil_iff_forall_not_mem]
    intro row hrow
    exact Nat.lt_irrefl 0 (h row hrow).1
  cases hx with
  | self => exact ⟨fun _ => by simp [hrows], fun _ => by simp [hrows]⟩
  | items hkind hviews hy _ =>
    have hlength := length_elements hviews
    rw [rowCount, ← Array.length_toList, hrows, List.length_nil, List.length_eq_zero_iff] at hlength
    rw [hlength] at hy
    cases hy

/-- **When a view is shown** within room that its rows leave. -/
theorem exists_valuesWithin_iff (hv : v.Sound) (h : Shallow room v) :
    (∃ values, valuesWithin room v = .ok values) ↔ ∀ x, v.Unfolds x → x.Showable := by
  induction room generalizing v with
  | zero => exact iff_of_true ⟨_, rfl⟩ fun x hx => h.showable_of_unfolds hx
  | succ room ih =>
    rw [exists_valuesWithin_succ_iff hv, forall_unfolds_iff]
    refine and_congr_right' (forall_congr' fun hkind => forall₂_congr fun views hviews =>
      forall₂_congr fun y hy => ?_)
    obtain ⟨hsound, hshallow⟩ := h.of_elements hv hviews hy
    exact ih hsound hshallow

/-! ## Reports -/

theorem exists_valuesReport_iff :
    (∃ report, v.valuesReport = .ok report) ↔ ∃ values, v.toJsonValues = .ok values := by
  unfold valuesReport toJsonValues
  cases hsimplify : v.simplify with
  | error e => simp [valuesWithin, hsimplify]
  | ok s =>
    dsimp only
    cases valuesWithin (v.config.limits.maxDepth + 1) v <;> simp

/-! ## Records that every view can show -/

/-- The values of all records are legible, and fewer than 128 containers stand around each other in
them. -/
def LegibleRecords (root : View) : Prop :=
  ∀ record ∈ root.records, ∀ m, Scanner.readTree root.source record = .ok m →
    m.Legible ∧ m.nesting < nestingLimit

/-- No array in a record has more items than there may be rows. -/
def NarrowRecords (root : View) : Prop :=
  ∀ record ∈ root.records, ∀ m, Scanner.readTree root.source record = .ok m →
    ∀ span items, (Node.array span items).Part m → items.length ≤ root.rowLimit

/-- No array in a record has more items than the source has bytes. -/
theorem length_items_le_size {source : ByteSource} {record span : Span} {node : Node}
    {items : List Node} (hread : Scanner.readTree source record = .ok node)
    (hm : (Node.array span items).Part node) : items.length ≤ source.size := by
  have hread' : Scanner.readTree source span = .ok (.array span items) :=
    (readTree_part hread hm).1
  obtain ⟨before, own, after, -, -, hwrites, -, hstop, -⟩ := shows_of_readTree hread'
  have hlength := hwrites.length_items_le
  have hfits := (readTree_eq_ok_iff.mp hread').1
  rw [Span.fits, Bool.and_eq_true, decide_eq_true_eq, decide_eq_true_eq] at hfits
  rw [Utf8.width_append, Utf8.width_append] at hstop
  omega

/-- Where the source has no more bytes than memory has room for rows, only a limit that is set can
be exceeded. -/
theorem narrowRecords_of_unlimited (hlimit : root.config.limits.maxRows = none)
    (hsize : root.source.size ≤ RowStore.addressable Contents.rowWidth) :
    root.NarrowRecords := by
  intro record _ m hread span items hpart
  have hrows : root.rowLimit = RowStore.addressable Contents.rowWidth := by
    rw [rowLimit, Contents.rowLimit, hlimit]
    rfl
  rw [hrows]
  exact Nat.le_trans (length_items_le_size hread hpart) hsize

theorem Unfolds.chain (h : v.Unfolds x) : v.Chain x := by
  induction h with
  | self => exact .refl
  | items _ hviews hy _ ih => exact .head (.elements hviews hy) ih

theorem length_of_scannedItems {s : Schema} {items : List Node} {cells : List Cell}
    (h : ScannedItems s items cells) : cells.length = items.length := by
  induction items generalizing cells with
  | nil =>
    simp only [ScannedItems] at h
    rw [h, List.length_nil, List.length_nil]
  | cons item items ih =>
    obtain ⟨c, cs, rfl, -, hcs⟩ := h
    rw [List.length_cons, List.length_cons, ih hcs]

/-- An image has as many items as the value. -/
theorem length_elements_le {s : Schema} {m : Node} {n : Nat} (hscanned : Scanned s m row)
    (h : ∀ span items, (Node.array span items).Part m → items.length ≤ n) :
    row.elements.length ≤ n := by
  cases m with
  | array span items =>
    obtain ⟨type, cells, element, rfl, hitems, -⟩ := hscanned
    exact length_of_scannedItems hitems ▸ h span items .self
  | object span members =>
    obtain ⟨type, cells, fields, rfl, -⟩ := hscanned
    exact Nat.zero_le n
  | _ =>
    simp only [Scanned] at hscanned
    subst hscanned
    exact Nat.zero_le n

/-- A row of a view is not there, or is the image of a value inside a record of the root. -/
theorem Traced.mem_records (h : Traced root w) (hrow : row ∈ w.rows.toList) :
    row = .absent ∨ ∃ record ∈ root.records, ∃ node m,
      Scanner.readTree root.source record = .ok node ∧ m.Part node ∧ Scanned w.schema m row := by
  obtain ⟨i, hi⟩ := List.mem_iff_getElem?.mp hrow
  rw [Array.getElem?_toList] at hi
  refine (h.inside i row hi).imp_right ?_
  rintro ⟨record, node, m, hrecord, hread, hm, hscanned⟩
  exact ⟨record, List.mem_of_getElem? hrecord, node, m, h.source_eq ▸ hread, hm, hscanned⟩

theorem showable_of_legibleRecords (htraced : Traced root w) (h : root.LegibleRecords)
    (hnarrow : root.NarrowRecords) : w.Showable := by
  constructor
  · intro _ row hrow
    rcases htraced.mem_records hrow with rfl | ⟨record, hrecord, node, m, hread, hm, hscanned⟩
    · exact Nat.zero_le _
    rw [rowLimit, htraced.config_eq]
    exact length_elements_le hscanned fun span items hpart =>
      hnarrow record hrecord node hread span items (hpart.trans hm)
  · intro _ row hrow span hspan m' hread'
    rcases htraced.mem_records hrow with rfl | ⟨record, hrecord, node, m, hread, hm, hscanned⟩
    · cases hspan
    obtain ⟨hlegible, hnesting⟩ := h record hrecord node hread
    have hread₁ := (readTree_part hread hm).1
    rw [← htraced.source_eq] at hread₁
    rw [spanOf?_of_scanned hscanned hread₁] at hspan
    cases hspan
    cases hread₁.symm.trans hread'
    exact ⟨hlegible.part hm, Nat.lt_of_le_of_lt hm.nesting_le hnesting⟩

/-! ## What is shown -/

/-- When the rows of a view are shown as values; `root` is the view that it comes from. -/
structure Shows (root v : View) : Prop where
  /-- They are when the view can be shown and so can all views that unfold out of it. -/
  values_iff : (∃ values, v.toJsonValues = .ok values) ↔ ∀ w, v.Unfolds w → w.Showable
  /-- There is nothing else that a report of the values fails for. -/
  report_iff : (∃ report, v.valuesReport = .ok report) ↔ ∀ w, v.Unfolds w → w.Showable
  /-- There is one value for each row. -/
  length_eq : ∀ values, v.toJsonValues = .ok values → values.length = v.rowCount
  /-- They are whenever the records are legible and their arrays fit. -/
  of_legible : root.LegibleRecords → root.NarrowRecords → ∃ values, v.toJsonValues = .ok values
  /-- They are whenever the records are legible, if no limit of rows is set. -/
  of_unlimited : root.config.limits.maxRows = none →
    root.source.size ≤ RowStore.addressable Contents.rowWidth → root.LegibleRecords →
      ∃ values, v.toJsonValues = .ok values

/-- **What can be shown**, over every chain of views. -/
theorem shows_chain {source : ByteSource} {config : Config} (hroot : load source config = .ok root)
    (hchain : root.Chain v) : root.Shows v := by
  have hv : v.Sound := sound_chain hroot hchain
  have hvalues : (∃ values, v.toJsonValues = .ok values) ↔ ∀ w, v.Unfolds w → w.Showable :=
    exists_valuesWithin_iff hv hv.shallow
  have hlegible : root.LegibleRecords → root.NarrowRecords →
      ∃ values, v.toJsonValues = .ok values := fun h hnarrow => hvalues.mpr fun w hw =>
    showable_of_legibleRecords (traced_chain hroot (hchain.trans hw.chain)) h hnarrow
  exact {
    values_iff := hvalues
    report_iff := exists_valuesReport_iff.trans hvalues
    length_eq := fun _ => length_valuesWithin_succ
    of_legible := hlegible
    of_unlimited := fun hlimit hsize h =>
      hlegible h (narrowRecords_of_unlimited hlimit hsize) }

/-- Records that are arrays of arrays, of which one holds a record. -/
def nestedArrays : ByteSource := .ofString "[[1,2.5],[]]\n[[\x7b\"b\":\"x\"\x7d]]\n"

theorem shows_chain_nestedArrays : ∃ root values, load nestedArrays {} = .ok root ∧
    root.Shows root ∧ root.toJsonValues = .ok values ∧
      values.map compact = ["[[1.0,2.5],[]]", "[[\x7b\"b\":\"x\"\x7d]]"] := by
  have hrun : ((load nestedArrays {}).toOption.bind fun root =>
      root.toJsonValues.toOption.map fun values => values.map compact) =
        some ["[[1.0,2.5],[]]", "[[\x7b\"b\":\"x\"\x7d]]"] := by
    decide +kernel
  obtain ⟨root, hload, hrun⟩ := Option.bind_eq_some_iff.mp hrun
  obtain ⟨values, hvalues, htexts⟩ := Option.map_eq_some_iff.mp hrun
  have hroot := eq_ok_of_toOption hload
  exact ⟨root, values, hroot, shows_chain hroot .refl, eq_ok_of_toOption hvalues, htexts⟩

end JsonLines.View
