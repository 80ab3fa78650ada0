/-
JsonLines.Proofs.Coercion.RowValues — what the values of rows are converted to.

The classes of texts say how the text of a row converts; here the same is said of the value that the
row is read as (`Convert.Cell`), so that it can be used where rows are known by their values. What
all values have in common is the kind of the view, which is the least one that covers their kinds
(`View.kind_le_iff`).
-/
import JsonLines.Coercion.Simplified
import JsonLines.Proofs.Coercion.Doubles
import JsonLines.Proofs.Dataset.Values
import JsonLines.Proofs.Schema.Kinds

namespace JsonLines

open Json

/-! ## What values hold -/

namespace Json.Node

variable {m : Node}

/-- The value is a boolean. -/
def HoldsBoolean (m : Node) (b : Bool) : Prop := ∃ span, m = .boolean span b

/-- The value is an integral literal within 32 bits. -/
def HoldsInteger (m : Node) (i : Int) : Prop :=
  ∃ span n, m = .number span n ∧ n.isIntegral = true ∧ n.toInt = i ∧ Convert.Within32 i

/-- The value is a number literal, within the range of doubles. -/
def HoldsReal (m : Node) (x : Binary64) : Prop :=
  ∃ span n, m = .number span n ∧ n.toBinary64 = x ∧ x.isFinite = true

/-- The value is a string literal that spells a text. -/
def HoldsText (m : Node) (t : String) : Prop :=
  ∃ span raw, m = .text span raw ∧ Literal.Spells raw t.toList

/-- The value is an integer of 32 bits. -/
def IsInteger32 (m : Node) : Prop := ∃ i, m.HoldsInteger i

/-- The value is of a kind and not null. Numbers without fraction and exponent are integers, and all
numbers are reals. -/
def OfKind (m : Node) : Kind → Prop
  | .null => False
  | .boolean => ∃ span b, m = .boolean span b
  | .integer => ∃ span n, m = .number span n ∧ n.isIntegral = true
  | .real => ∃ span n, m = .number span n
  | .text => ∃ span raw, m = .text span raw
  | .array => ∃ span items, m = .array span items
  | .record => ∃ span members, m = .object span members
  | .any => ∀ span, m ≠ .null span

/-- The values that are there and are not null are all of some sort. -/
def Every (P : Node → Prop) (values : List (Option Node)) : Prop :=
  ∀ m, some m ∈ values → (∃ span, m = .null span) ∨ P m

theorem kind_le_iff {k : Kind} : m.kind ≤ k ↔ (∃ span, m = .null span) ∨ m.OfKind k := by
  rw [Kind.le_iff]
  cases m with
  | number span n => cases k <;> cases h : n.isIntegral <;> simp [kind, OfKind, h]
  | _ => cases k <;> simp [kind, OfKind]

end Json.Node

namespace Convert

variable {α : Type}

/-- The cell of a row by its value: empty for a row that is not there, for a null, and for a value
that holds nothing of the kind. -/
inductive Cell (Holds : Node → α → Prop) : Option Node → Option α → Prop where
  | absent : Cell Holds none none
  | null {span : Span} : Cell Holds (some (.null span)) none
  | value {m : Node} {a : α} : Holds m a → Cell Holds (some m) (some a)
  | gap {m : Node} : (∀ span, m ≠ .null span) → (∀ a, ¬ Holds m a) → Cell Holds (some m) none

/-- What a text is read as is what the value that it writes holds. -/
def Target.OfValues (target : Target α) (Holds : Node → α → Prop) : Prop :=
  ∀ {p text m a}, Writes p text.toList m → (target.reads text a ↔ Holds m a)

theorem ofValues_booleans : booleans.OfValues Node.HoldsBoolean := booleans_reads_iff

theorem ofValues_integers : integers.OfValues Node.HoldsInteger := by
  intro p text m i h
  rw [integers_reads_iff h, Node.HoldsInteger]
  refine exists_congr fun span => exists_congr fun n => and_congr_right fun hm => ?_
  subst hm
  rw [plain_iff h.2]

theorem ofValues_reals : reals.OfValues Node.HoldsReal := reals_reads_iff

theorem ofValues_texts : texts.OfValues Node.HoldsText := texts_reads_iff

end Convert

namespace View

variable {α : Type} {target : Convert.Target α} {convert : Kind → List Char → Outcome α}
  {Holds : Node → α → Prop} {v : View} {row : Cell} {value : Option Node}
  {text? : Option String} {outcome : Outcome α} {m : Node} {k : Kind}

/-- The text of a row by its value: what the source has at the value, none for a row that is not
there. -/
inductive RawCell (source : ByteSource) : Option Node → Option String → Prop where
  | absent : RawCell source none none
  | text {m : Node} {text : String} : source.Shows m.span.offset text.toList →
    Writes m.span.offset text.toList m → RawCell source (some m) (some text)

theorem rawCell_of_textOf (h : v.TextOf row text?) :
    RawCell v.source (v.valueOf row) text? := by
  rcases h with ⟨rfl, rfl⟩ | ⟨text, m, rfl, hwrites, hshows, hscanned⟩
  · exact .absent
  · rw [valueOf_of_scanned hscanned (readTree_of_writes hshows hwrites)]
    exact .text hshows hwrites

/-- An explicit null has the text of one. -/
theorem RawCell.eq_null {source : ByteSource} {span : Span}
    (h : RawCell source (some (.null span)) text?) : text? = some "null" := by
  cases h with
  | text _ hwrites => exact congrArg some ((Convert.eq_null_iff hwrites).mpr ⟨span, rfl⟩)

/-- **The cell of a row is told by its value.** -/
theorem cell_of_class (hlawful : target.Lawful) (hvalues : target.OfValues Holds)
    {source : ByteSource} (hraw : RawCell source value text?)
    (hclass : target.Class text? outcome) : Convert.Cell Holds value outcome.toOption := by
  cases hraw with
  | absent =>
    cases hclass
    exact .absent
  | text _ hwrites =>
    cases hclass with
    | null =>
      obtain ⟨span, rfl⟩ := (Convert.eq_null_iff hwrites).mp rfl
      exact .null
    | value hreads => exact .value ((hvalues hwrites).mp hreads)
    | overflow hexceeds =>
      refine .gap ?_ fun a hholds => hlawful.not_exceeds ((hvalues hwrites).mpr hholds) hexceeds
      rintro span rfl
      exact hlawful.not_null.2 ((Convert.eq_null_iff hwrites).mpr ⟨span, rfl⟩ ▸ hexceeds)
    | invalid hnull hreads =>
      refine .gap (fun span heq => hnull ((Convert.eq_null_iff hwrites).mpr ⟨span, heq⟩)) ?_
      exact fun a hholds => hreads a ((hvalues hwrites).mpr hholds)

/-! ## Rows that are reported -/

theorem map_filter_numbered_eq_nil_iff {p : Outcome α → Bool} :
    ((v.numberedRows.map fun (cell, row) => (v.outcome convert cell, row)).filter
      (p ·.1)).map (·.2) = [] ↔ ∀ row ∈ v.rows.toList, p (v.outcome convert row) = false := by
  rw [List.map_eq_nil_iff, List.filter_eq_nil_iff, List.forall_mem_map, ← map_fst_numberedRows,
    List.forall_mem_map]
  simp only [Bool.not_eq_true]

/-- Nothing is reported as overflowed when no row overflows. -/
theorem overflowRows_eq_nil_iff : (v.coerce convert).overflowRows = [] ↔
    ∀ row ∈ v.rows.toList, v.outcome convert row ≠ .overflow := by
  refine map_filter_numbered_eq_nil_iff.trans (forall₂_congr fun row _ => ?_)
  cases v.outcome convert row <;> simp [Outcome.isOverflow]

/-- Nothing is reported as unfit when every row converts. -/
theorem invalidRows_eq_nil_iff : (v.coerce convert).invalidRows = [] ↔
    ∀ row ∈ v.rows.toList, v.outcome convert row ≠ .invalid := by
  refine map_filter_numbered_eq_nil_iff.trans (forall₂_congr fun row _ => ?_)
  cases v.outcome convert row <;> simp [Outcome.isInvalid]

/-! ## Outcomes by value -/

section

variable {span : Span} {n : Numeral} {b : Bool}

/-- The outcome of a row is told by the class that every text of its value is in. -/
theorem outcome_eq_of_value (hlawful : target.Lawful) (hfinds : target.Finds convert)
    (h : v.Stores row) (hvalue : v.valueOf row = value)
    (hclass : ∀ text?, RawCell v.source value text? → target.Class text? outcome) :
    v.outcome convert row = outcome :=
  have htext := textOf_of_stores h
  outcome_eq_of_class hlawful hfinds htext (hclass _ (hvalue ▸ rawCell_of_textOf htext))

theorem outcome_of_absent (hlawful : target.Lawful) (hfinds : target.Finds convert)
    (h : v.Stores row) (hvalue : v.valueOf row = none) : v.outcome convert row = .missing := by
  refine outcome_eq_of_value hlawful hfinds h hvalue fun text? hraw => ?_
  cases hraw
  exact .absent

theorem outcome_of_null (hlawful : target.Lawful) (hfinds : target.Finds convert)
    (h : v.Stores row) (hvalue : v.valueOf row = some (.null span)) :
    v.outcome convert row = .missing := by
  refine outcome_eq_of_value hlawful hfinds h hvalue fun text? hraw => ?_
  rw [hraw.eq_null]
  exact .null

theorem outcome_boolean_of_boolean (h : v.Stores row)
    (hvalue : v.valueOf row = some (.boolean span b)) :
    v.outcome Convert.boolean row = .value b := by
  refine outcome_eq_of_value Convert.lawful_booleans Convert.finds_boolean h hvalue ?_
  rintro _ (_ | ⟨-, hwrites⟩)
  exact .value hwrites.2

/-- A number without fraction and exponent is an integer, or overflows. -/
theorem outcome_integer_of_integral (h : v.Stores row)
    (hvalue : v.valueOf row = some (.number span n)) (hintegral : n.isIntegral = true) :
    v.outcome Convert.integer row =
      if Convert.inRange n.toInt then .value n.toInt else .overflow := by
  refine outcome_eq_of_value Convert.lawful_integers Convert.finds_integer h hvalue ?_
  rintro _ (_ | ⟨-, hwrites⟩)
  have hplain := (Convert.plain_iff hwrites.2).mpr hintegral
  split
  · exact .value ⟨n, hwrites.2, hplain, rfl, Convert.inRange_iff.mp ‹_›⟩
  · exact .overflow ⟨n, hwrites.2, hplain, fun hwithin => ‹¬ _› (Convert.inRange_iff.mpr hwithin)⟩

/-- A number is a double, or overflows. -/
theorem outcome_real_of_number (h : v.Stores row)
    (hvalue : v.valueOf row = some (.number span n)) :
    v.outcome Convert.real row =
      if n.toBinary64.isFinite then .value n.toBinary64 else .overflow := by
  refine outcome_eq_of_value Convert.lawful_reals Convert.finds_real h hvalue ?_
  rintro _ (_ | ⟨-, hwrites⟩)
  split
  · exact .value ⟨n, hwrites.2, rfl, ‹_›⟩
  · exact .overflow ⟨n, hwrites.2, Bool.eq_false_of_not_eq_true ‹_›⟩

end

section

variable (hv : v.Sound)

include hv

/-- The texts of all rows are those of their values. -/
theorem rawCells : List.Forall₂ (RawCell v.source) v.values v.toJsonText := by
  rw [values, List.forall₂_map_left_iff]
  exact (forall₂_textOf hv).imp fun _ _ => rawCell_of_textOf

/-- **All rows are converted as their values tell.** -/
theorem cells_coerce (hlawful : target.Lawful) (hfinds : target.Finds convert)
    (hvalues : target.OfValues Holds) :
    List.Forall₂ (Convert.Cell Holds) v.values (v.coerce convert).values := by
  rw [values, values_coerce, List.forall₂_map_left_iff, List.forall₂_map_right_iff,
    List.forall₂_same]
  intro row hrow
  have htext := textOf_of_stores (hv.stores row hrow)
  exact cell_of_class hlawful hvalues (rawCell_of_textOf htext) (class_outcome hfinds htext)

theorem cells_toBoolean :
    List.Forall₂ (Convert.Cell Node.HoldsBoolean) v.values v.toBoolean.values :=
  cells_coerce hv Convert.lawful_booleans Convert.finds_boolean Convert.ofValues_booleans

theorem cells_toInteger :
    List.Forall₂ (Convert.Cell Node.HoldsInteger) v.values v.toInteger.values :=
  cells_coerce hv Convert.lawful_integers Convert.finds_integer Convert.ofValues_integers

theorem cells_toReal : List.Forall₂ (Convert.Cell Node.HoldsReal) v.values v.toReal.values :=
  cells_coerce hv Convert.lawful_reals Convert.finds_real Convert.ofValues_reals

theorem cells_toText : List.Forall₂ (Convert.Cell Node.HoldsText) v.values v.toText.values :=
  cells_coerce hv Convert.lawful_texts Convert.finds_text Convert.ofValues_texts

/-! ## The kind of a view -/

/-- **The kind of a view is the least one that covers its values.** -/
theorem kind_le_iff : v.kind ≤ k ↔ Node.Every (·.OfKind k) v.values := by
  have hrows : v.kind ≤ k ↔ ∀ row ∈ v.rows.toList, v.schema.kind row.type ≤ k := by
    have hkind : v.kind = (v.schema.tree v.type).kind := Schema.kind_eq hv.wellFormed v.type
    rw [hkind, ← TypeTree.le_top_iff, isLUB_le_iff hv.least, mem_upperBounds]
    simp only [Schema.kind_eq hv.wellFormed, ← TypeTree.le_top_iff]
    constructor
    · intro h row hrow
      exact h _ ⟨row, hrow, rfl⟩
    · rintro h _ ⟨row, hrow, rfl⟩
      exact h row hrow
  rw [hrows]
  constructor
  · intro hall m hm
    obtain ⟨row, hrow, hvalue⟩ := List.mem_map.mp hm
    obtain ⟨hscanned, -⟩ := (hv.stores row hrow).valueOf_eq_some_iff.mp hvalue
    rw [← Node.kind_le_iff, ← hscanned.kind_eq]
    exact hall row hrow
  · intro hall row hrow
    rcases hv.stores row hrow with rfl | ⟨m, hscanned, hread, -⟩
    · have habsent : Scanned v.schema (.null .empty) .absent := rfl
      rw [habsent.kind_eq]
      exact .inr (.inl rfl)
    · rw [hscanned.kind_eq, Node.kind_le_iff]
      exact hall m (List.mem_map.mpr ⟨row, hrow, valueOf_of_scanned hscanned hread⟩)

/-- What the value of a row can be in a view of some kind. -/
theorem row_cases (hkind : v.kind ≤ k) (hrow : row ∈ v.rows.toList) : v.valueOf row = none ∨
    (∃ span, v.valueOf row = some (.null span)) ∨
      ∃ m, v.valueOf row = some m ∧ m.OfKind k := by
  cases hvalue : v.valueOf row with
  | none => exact .inl rfl
  | some m =>
    rcases (kind_le_iff hv).mp hkind m (List.mem_map.mpr ⟨row, hrow, hvalue⟩) with
      ⟨span, rfl⟩ | hm
    · exact .inr (.inl ⟨span, rfl⟩)
    · exact .inr (.inr ⟨m, rfl, hm⟩)

/-- **Numbers are widened when one of them has more than 32 bits.** -/
theorem widens_eq_false_iff (hkind : v.kind = .integer) :
    v.widens = false ↔ Node.Every Node.IsInteger32 v.values := by
  have hwidens : v.widens = false ↔ v.toInteger.overflowRows = [] := by
    rw [widens, hkind, Coerced.overflowed]
    simp
  rw [hwidens, toInteger, overflowRows_eq_nil_iff]
  have hle : v.kind ≤ .integer := .inl hkind
  constructor
  · intro hall m hm
    obtain ⟨row, hrow, hvalue⟩ := List.mem_map.mp hm
    have hoverflow := hall row hrow
    rcases (kind_le_iff hv).mp hle m hm with hnull | ⟨span, n, rfl, hintegral⟩
    · exact .inl hnull
    rw [outcome_integer_of_integral (hv.stores row hrow) hvalue hintegral] at hoverflow
    split at hoverflow
    · exact .inr ⟨n.toInt, span, n, rfl, hintegral, rfl, Convert.inRange_iff.mp ‹_›⟩
    · exact absurd rfl hoverflow
  · intro hall row hrow
    have hstores := hv.stores row hrow
    rcases row_cases hv hle hrow with hvalue | ⟨span, hvalue⟩ | ⟨m, hvalue, span, n, rfl, hintegral⟩
    · rw [outcome_of_absent Convert.lawful_integers Convert.finds_integer hstores hvalue]
      exact nofun
    · rw [outcome_of_null Convert.lawful_integers Convert.finds_integer hstores hvalue]
      exact nofun
    · rw [outcome_integer_of_integral hstores hvalue hintegral]
      rcases hall _ (List.mem_map.mpr ⟨row, hrow, hvalue⟩) with
        ⟨_, hnull⟩ | ⟨i, _, _, heq, -, rfl, hwithin⟩
      · cases hnull
      · cases heq
        rw [if_pos (Convert.inRange_iff.mpr hwithin)]
        exact nofun

end

end View

end JsonLines
