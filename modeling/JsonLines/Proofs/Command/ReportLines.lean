/-
JsonLines.Proofs.Command.ReportLines — the report of values, row by row and line by line.

A report pairs row numbers with values and writes each pair on a line. Nothing is dropped, since
there is one of each for every row; and a value stands for its row in the way that `ShownAs` says
for all rows of a dataset at once: converted in a dataset of scalars, item by item in one of arrays,
and as what it denotes in any other. The text splits into the lines again because a value without
blanks holds no line feed, whatever its strings and names hold
(`Json.Value.newline_not_mem_compact`).
-/
import JsonLines.Proofs.Coercion.Widening
import JsonLines.Proofs.Command.Paths
import JsonLines.Proofs.Command.Showing
import JsonLines.Proofs.Dataset.Spelling
import JsonLines.Proofs.Scan.Denotation

namespace JsonLines

open Json Json.Value

/-! ## Values on one line -/

theorem newline_not_mem_toDigits (n : Nat) : '\n' ∉ Nat.toDigits 10 n :=
  RowList.not_mem_decimal (by decide) n

theorem newline_not_mem_toString (n : Nat) : '\n' ∉ (toString n).toList := by
  rw [Nat.toString_eq_repr, Nat.toList_repr]
  exact newline_not_mem_toDigits n

/-- Digits with a point among them. -/
theorem newline_not_mem_pointed {digits : List Char} (h : '\n' ∉ digits) (place : Nat) :
    '\n' ∉ digits.take place ++ '.' :: digits.drop place := by
  simp only [List.mem_append, List.mem_cons, not_or]
  exact ⟨fun hmem => h (List.mem_of_mem_take hmem), by decide,
    fun hmem => h (List.mem_of_mem_drop hmem)⟩

theorem newline_not_mem_replicate (n : Nat) : '\n' ∉ List.replicate n '0' := fun hmem =>
  absurd (List.eq_of_mem_replicate hmem) (by decide)

theorem Binary64.newline_not_mem_renderCode (code : Nat) : '\n' ∉ renderCode code := by
  unfold renderCode
  split
  · decide
  have hdigits := newline_not_mem_toDigits (Shortest.decimal code).1
  have hpointed := newline_not_mem_pointed hdigits
  dsimp only
  split
  · split
    · simp only [List.mem_append, List.mem_cons, List.not_mem_nil, or_false, not_or]
      exact ⟨⟨hdigits, newline_not_mem_replicate _⟩, by decide, by decide⟩
    split
    · exact hpointed _
    · simp only [List.mem_append, List.mem_cons, not_or]
      exact ⟨by decide, by decide, newline_not_mem_replicate _, hdigits⟩
  · simp only [List.mem_append, List.mem_cons, not_or]
    refine ⟨?_, by decide, ?_, newline_not_mem_toDigits _⟩
    · split
      · exact hdigits
      · exact hpointed 1
    · split <;> decide

theorem Json.Number.newline_not_mem_render (n : Number) : '\n' ∉ n.render.toList := by
  cases n with
  | integer i =>
    cases i with
    | ofNat n => exact newline_not_mem_toString n
    | negSucc n =>
      have htext : (Number.integer (.negSucc n)).render = "-" ++ toString (n + 1) := rfl
      rw [htext, String.toList_append, List.mem_append, not_or]
      exact ⟨by decide, newline_not_mem_toString _⟩
  | real x =>
    rw [Number.render, Binary64.render, String.toList_ofList]
    split
    · rw [List.mem_cons, not_or]
      exact ⟨by decide, Binary64.newline_not_mem_renderCode _⟩
    · exact Binary64.newline_not_mem_renderCode _

theorem Json.Literal.newline_not_mem_quote (text : String) :
    '\n' ∉ (Literal.quote text).toList := by
  have hraw := (Literal.spells_escape text.toList).written.newline_not_mem
  rw [Literal.quote, String.toList_ofList, Literal.quoteChars]
  simp only [List.mem_cons, List.mem_append, List.not_mem_nil, or_false, not_or]
  exact ⟨by decide, hraw, by decide⟩

/-- Texts with a comma between them. -/
theorem newline_not_mem_intercalate {texts : List String}
    (h : ∀ text ∈ texts, '\n' ∉ text.toList) : '\n' ∉ (",".intercalate texts).toList := by
  rw [String.toList_intercalate]
  induction texts with
  | nil => exact List.not_mem_nil
  | cons first texts ih =>
    obtain ⟨hfirst, htexts⟩ := List.forall_mem_cons.mp h
    cases texts with
    | nil => rwa [List.map_singleton, List.intercalate_singleton]
    | cons second texts =>
      rw [List.map_cons, List.map_cons, List.intercalate_cons_cons, ← List.map_cons]
      simp only [List.mem_append, not_or]
      exact ⟨⟨hfirst, by decide⟩, ih htexts⟩

namespace Json.Value

mutual

/-- **A value without blanks stands on one line.** -/
theorem newline_not_mem_compact : ∀ value : Value, '\n' ∉ value.compact.toList
  | .null => by decide
  | .boolean true => by decide
  | .boolean false => by decide
  | .number n => n.newline_not_mem_render
  | .string text => Literal.newline_not_mem_quote text
  | .array items => by
    have hitems := newline_not_mem_intercalate (newline_not_mem_compactItems items)
    simp only [compact, String.toList_append, List.mem_append, not_or]
    exact ⟨⟨by decide, hitems⟩, by decide⟩
  | .object members => by
    have hmembers := newline_not_mem_intercalate (newline_not_mem_compactMembers members)
    simp only [compact, String.toList_append, List.mem_append, not_or]
    exact ⟨⟨by decide, hmembers⟩, by decide⟩

theorem newline_not_mem_compactItems :
    ∀ items : List Value, ∀ text ∈ compactItems items, '\n' ∉ text.toList
  | [] => nofun
  | item :: items =>
    List.forall_mem_cons.mpr ⟨newline_not_mem_compact item, newline_not_mem_compactItems items⟩

theorem newline_not_mem_compactMembers :
    ∀ members : List (String × Value), ∀ text ∈ compactMembers members, '\n' ∉ text.toList
  | [] => nofun
  | (name, value) :: members => by
    refine List.forall_mem_cons.mpr ⟨?_, newline_not_mem_compactMembers members⟩
    simp only [String.toList_append, List.mem_append, not_or]
    exact ⟨⟨Literal.newline_not_mem_quote name, by decide⟩, newline_not_mem_compact value⟩

end

end Json.Value

/-! ## What stands for the rows -/

/-- The values are of a kind, and of none below it. -/
def Json.Node.LeastKind (rows : List (Option Node)) (k : Kind) : Prop :=
  ∀ l, k ≤ l ↔ Node.Every (·.OfKind l) rows

theorem Json.Node.LeastKind.unique {rows : List (Option Node)} {k l : Kind}
    (h : LeastKind rows k) (h' : LeastKind rows l) : k = l :=
  Kind.le_antisymm ((h l).mpr ((h' l).mp (.inl rfl))) ((h' k).mpr ((h k).mp (.inl rfl)))

namespace View

variable {root v w : View} {rows : List (Option Node)} {row : Option Node} {text? : Option String}
  {value : Value} {values items : List Value} {views : List View} {room : Nat}

/-- The items of a row. What is no array has none. -/
def rowItems (row : Option Node) : List (Option Node) := ((row.map Node.items).getD []).map some

/-- A row that is not there is null, and any other row what its value denotes. -/
inductive DenotesRow : Option Node → Value → Prop where
  | absent : DenotesRow none .null
  | value {m : Node} {value : Value} : Denotes m value → DenotesRow (some m) value

mutual

/-- The values stand for the rows, one for each. Which ones they are is decided for all rows
together: rows of one scalar kind are converted, arrays are shown item by item, and records and
mixed rows as what they denote. -/
inductive ShownAs : List (Option Node) → List Value → Prop where
  | boolean {rows : List (Option Node)} {cells : List (Option Bool)} :
    Node.LeastKind rows .null ∨ Node.LeastKind rows .boolean →
      List.Forall₂ (Convert.Cell Node.HoldsBoolean) rows cells →
        ShownAs rows (cells.map (ofOption .boolean))
  | integer {rows : List (Option Node)} {cells : List (Option Int)} :
    Node.LeastKind rows .integer → Node.Every Node.IsInteger32 rows →
      List.Forall₂ IntegerCell rows cells →
        ShownAs rows (cells.map (ofOption fun n => .number (.integer n)))
  | widened {rows : List (Option Node)} {cells : List (Option Binary64)} :
    Node.LeastKind rows .integer → ¬ Node.Every Node.IsInteger32 rows →
      List.Forall₂ WidenedCell rows cells →
        ShownAs rows (cells.map (ofOption fun x => .number (.real x)))
  | real {rows : List (Option Node)} {cells : List (Option Binary64)} :
    Node.LeastKind rows .real → List.Forall₂ (Convert.Cell Node.HoldsReal) rows cells →
      ShownAs rows (cells.map (ofOption fun x => .number (.real x)))
  | text {rows : List (Option Node)} {cells : List (Option String)} :
    Node.LeastKind rows .text → List.Forall₂ (Convert.Cell Node.HoldsText) rows cells →
      ShownAs rows (cells.map (ofOption .string))
  | array {rows : List (Option Node)} {values : List Value} :
    Node.LeastKind rows .array → List.Forall₂ ShowsItems rows values → ShownAs rows values
  | own {rows : List (Option Node)} {values : List Value} :
    Node.LeastKind rows .record ∨ Node.LeastKind rows .any →
      List.Forall₂ DenotesRow rows values → ShownAs rows values

/-- The value is an array with one entry for each item of the row, and the entries stand for the
items. -/
inductive ShowsItems : Option Node → Value → Prop where
  | entries {row : Option Node} {items : List Value} : items.length = (rowItems row).length →
    ShownAs (rowItems row) items → ShowsItems row (.array items)

end

theorem ShownAs.length_eq (h : ShownAs rows values) : values.length = rows.length := by
  cases h with
  | array _ hitems => exact hitems.length_eq.symm
  | own _ hvalues => exact hvalues.length_eq.symm
  | boolean _ hcells | integer _ _ hcells | widened _ _ hcells | real _ hcells | text _ hcells =>
    rw [List.length_map, hcells.length_eq]

/-- **Arrays are shown as arrays of their items.** -/
theorem ShownAs.showsItems (h : ShownAs rows values) (hkind : Node.LeastKind rows .array) :
    List.Forall₂ ShowsItems rows values := by
  cases h with
  | array _ hitems => exact hitems
  | boolean hkind' _ => rcases hkind' with h | h <;> cases hkind.unique h
  | own hkind' _ => rcases hkind' with h | h <;> cases hkind.unique h
  | integer h _ _ | widened h _ _ | real h _ | text h _ => cases hkind.unique h

/-! ## Shown values stand for the rows -/

theorem leastKind (hv : v.Sound) : Node.LeastKind v.values v.kind := fun _ => kind_le_iff hv

theorem leastKind_of_eq {k : Kind} (hv : v.Sound) (h : v.kind = k) : Node.LeastKind v.values k :=
  h ▸ leastKind hv

/-- The value of a row's text is what the row denotes. -/
theorem denotesRow_of_rawCell {source : ByteSource} (hraw : RawCell source row text?)
    (h : valueOfText text? = .ok value) : DenotesRow row value := by
  cases hraw with
  | absent =>
    cases h
    exact .absent
  | @text m text hshows hwrites =>
    rw [valueOfText] at h
    cases hparse : Value.parse text.toList with
    | error fault => simp [hparse] at h
    | ok parsed =>
      rw [hparse] at h
      cases h
      have hslice : source.slice m.span = text.toList.utf8Encode := by
        rw [hwrites.span_eq]
        exact hshows.slice_eq
      exact .value ((parse_eq_ok_iff_of_readTree (readTree_of_writes hshows hwrites) hslice).mp
        hparse).1

theorem denotesRows (hv : v.Sound) (h : valuesOfTexts v.toJsonText = .ok values) :
    List.Forall₂ DenotesRow v.values values := by
  have htexts := collects_valuesOfTexts.eq_ok_iff.mp h
  exact forall₂_of_shared (rawCells hv).flip htexts fun _ _ _ => denotesRow_of_rawCell

theorem arrayOf_eq_ok_iff {show? : View → Except Error (List Value)} :
    arrayOf show? w = .ok value ↔ ∃ items, show? w = .ok items ∧ value = .array items := by
  rw [arrayOf]
  cases show? w <;> simp [eq_comm]

/-- The items of all rows, if what is shown of a view of items stands for them. -/
theorem showsItems (hv : v.Sound) (hviews : v.elements = .ok views)
    (h : arraysOf (valuesWithin room) views = .ok values)
    (hshown : ∀ w ∈ views, ∀ items, valuesWithin room w = .ok items → ShownAs w.values items) :
    List.Forall₂ ShowsItems v.values values := by
  have hrows : List.Forall₂ (fun row w => w.values = rowItems row) v.values views := by
    rw [View.values, ← map_fst_numberedRows, List.map_map, List.forall₂_map_left_iff]
    refine ((List.forall₂_and_left _ _).mpr
      ⟨fun r hr => hv.stores_of_numbered hr, elementsOf_eq_ok_iff.mp hviews⟩).imp ?_
    rintro r w ⟨hstores, hw⟩
    exact values_itemsOf hstores hw
  have harrays := (List.forall₂_and_left _ _).mpr
    ⟨hshown, (collects_arraysOf _).eq_ok_iff.mp h⟩
  refine forall₂_of_shared hrows.flip harrays ?_
  rintro w row value hvalues ⟨hstand, harray⟩
  obtain ⟨items, hitems, rfl⟩ := arrayOf_eq_ok_iff.mp harray
  have hstand := hvalues ▸ hstand items hitems
  exact .entries hstand.length_eq hstand

/-- A view without room has no rows. -/
theorem values_of_shallow (h : Shallow 0 v) : v.values = [] := by
  rw [View.values, List.map_eq_nil_iff, List.eq_nil_iff_forall_not_mem]
  intro row hrow
  exact Nat.lt_irrefl 0 (h row hrow).1

/-- **What is shown stands for the rows**, by induction on the room for arrays in arrays. -/
theorem shownAs_valuesWithin (hv : v.Sound) (hshallow : Shallow room v)
    (h : valuesWithin room v = .ok values) : ShownAs v.values values := by
  induction room generalizing v values with
  | zero =>
    cases h
    rw [values_of_shallow hshallow]
    have hcells : List.Forall₂ (Convert.Cell Node.HoldsBoolean) [] [] := .nil
    refine .boolean (.inl fun l => iff_of_true (.inr (.inl rfl)) ?_) hcells
    exact nofun
  | succ room ih =>
    rw [valuesWithin] at h
    cases hsimplify : v.simplify with
    | error e => simp [hsimplify] at h
    | ok s =>
      rw [hsimplify] at h
      cases simplify_eq_ok_iff.mp hsimplify with
      | boolean hkind =>
        cases h
        exact .boolean (hkind.imp (leastKind_of_eq hv) (leastKind_of_eq hv)) (cells_toBoolean hv)
      | integer hkind hwidens =>
        cases h
        have hall := (widens_eq_false_iff hv hkind).mp hwidens
        exact .integer (leastKind_of_eq hv hkind) hall (integerCells hv hall)
      | widened hkind hwidens =>
        cases h
        have hall : ¬ Node.Every Node.IsInteger32 v.values := fun hall =>
          Bool.false_ne_true (((widens_eq_false_iff hv hkind).mpr hall).symm.trans hwidens)
        exact .widened (leastKind_of_eq hv hkind) hall (widenedCells hv (.inl hkind))
      | real hkind =>
        cases h
        exact .real (leastKind_of_eq hv hkind) (cells_toReal hv)
      | text hkind =>
        cases h
        exact .text (leastKind_of_eq hv hkind) (cells_toText hv)
      | list hkind hviews =>
        refine .array (leastKind_of_eq hv hkind)
          (showsItems hv hviews h fun w hw items hitems => ?_)
        obtain ⟨hsound, hroom⟩ := hshallow.of_elements hv hviews hw
        exact ih hsound hroom hitems
      | dataset hkind =>
        exact .own (hkind.imp (leastKind_of_eq hv) (leastKind_of_eq hv)) (denotesRows hv h)

/-! ## The lines -/

/-- The line of a row: its number, a colon and a blank, and its value. -/
def lineOfValue (row : Nat) (value : Value) : List Char :=
  RowList.decimal row ++ ": ".toList ++ value.compact.toList

theorem toList_valueLine (row : Nat) (value : Value) :
    (valueLine row value).toList = lineOfValue row value := by
  rw [valueLine, String.toList_append, String.toList_append, Nat.toString_eq_repr, Nat.toList_repr]
  rfl

theorem newline_not_mem_lineOfValue (row : Nat) (value : Value) :
    '\n' ∉ lineOfValue row value := by
  rw [lineOfValue, List.mem_append, List.mem_append, not_or, not_or]
  exact ⟨⟨newline_not_mem_toDigits row, by decide⟩, value.newline_not_mem_compact⟩

/-- **The lines are apart**, since no value holds a line feed. -/
theorem splitOn_valueLines {rows : List Nat} (hrows : rows ≠ []) (hvalues : values ≠ []) :
    Files.splitOn '\n' (String.intercalate "\n" (List.zipWith valueLine rows values)).toList =
      List.zipWith lineOfValue rows values := by
  have hlines : (List.zipWith valueLine rows values).map String.toList =
      List.zipWith lineOfValue rows values := by
    rw [List.map_zipWith]
    exact congrArg (fun line => List.zipWith line rows values) (funext₂ toList_valueLine)
  rw [Files.splitOn_eq_iff, String.toList_intercalate, hlines]
  refine ⟨rfl, ?_, fun line hline => ?_⟩
  · rw [ne_eq, List.zipWith_eq_nil_iff, not_or]
    exact ⟨hrows, hvalues⟩
  · rw [← List.map_uncurry_zip_eq_zipWith, List.mem_map] at hline
    obtain ⟨⟨row, value⟩, -, rfl⟩ := hline
    exact newline_not_mem_lineOfValue row value

/-! ## Reports -/

/-- What the report of a view is, with the values that its rows are shown as. -/
structure ReportsRows (v : View) (values : List Value) (report : Report) : Prop where
  message_eq : ∃ simplified, v.simplify = .ok simplified ∧ report.message = .ofMembers
    [("type", .string "VALUES"), ("field", ofOption .string v.provenance.fieldPath),
     ("kind", .string simplified.name), ("rows", .array (v.rowNumbers.map .ofNat)),
     ("values", .array values)]
  /-- There is one value and one number for each row. -/
  lengths_eq : values.length = v.rowCount ∧ v.rowNumbers.length = v.rowCount
  /-- Each value stands for the row at its place. -/
  shown : ShownAs v.values values
  arrays : v.kind = .array → List.Forall₂ ShowsItems v.values values
  /-- Between its line feeds the text has the lines of the rows and nothing else. -/
  length_lines : 0 < v.rowCount → (Files.splitOn '\n' report.text.toList).length = v.rowCount
  line : ∀ k value, values[k]? = some value →
    (Files.splitOn '\n' report.text.toList)[k]? = some (lineOfValue (v.rowNumber k) value)

/-- **Rows that are shown are reported one by one**, over every chain of views. -/
theorem reports_rows {source : ByteSource} {config : Config} (hroot : load source config = .ok root)
    (hchain : root.Chain v) (hvalues : v.toJsonValues = .ok values) :
    ∃ report, v.valuesReport = .ok report ∧ v.ReportsRows values report := by
  have hv := sound_chain hroot hchain
  have hlength : values.length = v.rowCount := length_valuesWithin_succ hvalues
  have hnumbers : v.rowNumbers.length = v.rowCount := by
    rw [rowNumbers, List.length_map, List.length_range]
  have hshown := shownAs_valuesWithin hv hv.shallow hvalues
  obtain ⟨report, hreport⟩ := exists_valuesReport_iff.mpr ⟨values, hvalues⟩
  refine ⟨report, hreport, ?_⟩
  cases hsimplify : v.simplify with
  | error e => simp [valuesReport, hsimplify] at hreport
  | ok simplified =>
    simp only [valuesReport, hsimplify, hvalues, Except.ok.injEq] at hreport
    subst hreport
    have hsplit (hcount : 0 < v.rowCount) := splitOn_valueLines
      (List.ne_nil_of_length_pos (hnumbers ▸ hcount)) (List.ne_nil_of_length_pos (hlength ▸ hcount))
    refine ⟨⟨simplified, hsimplify, rfl⟩, ⟨hlength, hnumbers⟩, hshown,
      fun hkind => hshown.showsItems (leastKind_of_eq hv hkind), fun hcount => ?_,
      fun k value hvalue => ?_⟩
    · rw [hsplit hcount, List.length_zipWith, hlength, hnumbers, Nat.min_self]
    · have hk : k < v.rowCount := hlength ▸ (List.getElem?_eq_some_iff.mp hvalue).1
      rw [hsplit (Nat.zero_lt_of_lt hk), List.getElem?_zipWith_eq_some]
      exact ⟨_, _, getElem?_rowNumbers hk, hvalue, rfl⟩

/-- Three records: an array of arrays, of which one is a null, an array of nothing, and an array
of one array with a line feed in a string and in a name. -/
def writtenFeeds : ByteSource := .ofString
  "[[1],null]\n[]\n[[\"a\\nb\",\x7b\"c\\u000a\":2.50\x7d]]\n"

/-- The third record and then the first one. -/
theorem reports_rows_writtenFeeds : ∃ root v values report, load writtenFeeds {} = .ok root ∧
    root.Chain v ∧ v.toJsonValues = .ok values ∧ v.valuesReport = .ok report ∧
      v.ReportsRows values report ∧
        report.text = "3: [[\"a\\nb\",\x7b\"c\\n\":2.5\x7d]]\n1: [[1],[]]" := by
  have hrun : ((load writtenFeeds {}).toOption.bind fun root =>
      (root.select [3, 1]).toOption.bind fun v =>
        v.toJsonValues.toOption.bind fun _ => v.valuesReport.toOption.map (·.text)) =
          some "3: [[\"a\\nb\",\x7b\"c\\n\":2.5\x7d]]\n1: [[1],[]]" := by
    decide +kernel
  obtain ⟨root, hload, hrun⟩ := Option.bind_eq_some_iff.mp hrun
  obtain ⟨v, hselect, hrun⟩ := Option.bind_eq_some_iff.mp hrun
  obtain ⟨values, hvalues, hrun⟩ := Option.bind_eq_some_iff.mp hrun
  obtain ⟨report, hreport, htext⟩ := Option.map_eq_some_iff.mp hrun
  have hroot := eq_ok_of_toOption hload
  have hchain : root.Chain v := .single (.select (eq_ok_of_toOption hselect))
  have hvalues := eq_ok_of_toOption hvalues
  have hreport := eq_ok_of_toOption hreport
  obtain ⟨report', hreport', hreports⟩ := reports_rows hroot hchain hvalues
  cases hreport.symm.trans hreport'
  exact ⟨root, v, values, report, hroot, hchain, hvalues, hreport, hreports, htext⟩

end View

end JsonLines
