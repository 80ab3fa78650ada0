/-
JsonLines.Proofs.Columns.TextSizes — how many bytes the texts of a column take.

A text in a column comes from one row: it is the JSON text of the row, or what that text spells,
which is no longer. So the texts of a column take no more bytes than the rows do
(`textSize_columnOf_le`), a column of members no more than the rows that they are in
(`totalSize_member?_le`), and the rows of a dataset that was loaded no more than its source
(`rowsSize_root_le`).
-/
import JsonLines.Proofs.Coercion.RowValues
import JsonLines.Proofs.Columns.Exporting
import JsonLines.Proofs.Scan.Relocating
import JsonLines.Proofs.Source.RecordSpans

namespace JsonLines

open Json

variable {source : ByteSource} {span : Span} {spans : List Span} {node m : Node}
  {values : List (Option Node)} {text? : Option String} {cells : List (Option String)}
  {cs : List Char} {p : Nat} {name : String}

/-! ## Sizes -/

/-- The bytes of some spans together. -/
def Span.total : List Span → Nat
  | [] => 0
  | span :: spans => span.len + total spans

namespace Json.Node

/-- The bytes of the text of a row by its value, none for a row that is not there. -/
def rowSize (value? : Option Node) : Nat := (value?.map fun m => m.span.len).getD 0

/-- The bytes of the texts of some rows together. -/
def totalSize : List (Option Node) → Nat
  | [] => 0
  | value? :: values => rowSize value? + totalSize values

theorem totalSize_le_total (h : ∀ (k : Nat) value?, values[k]? = some value? →
    ∃ span, spans[k]? = some span ∧ rowSize value? ≤ span.len) :
    totalSize values ≤ Span.total spans := by
  induction values generalizing spans with
  | nil => exact Nat.zero_le _
  | cons value? values ih =>
    obtain ⟨span, hspan, hle⟩ := h 0 value? rfl
    cases spans with
    | nil => cases hspan
    | cons first spans =>
      cases hspan
      exact Nat.add_le_add hle (ih fun k => h (k + 1))

theorem totalSize_map_le {f : Option Node → Option Node}
    (h : ∀ value? ∈ values, rowSize (f value?) ≤ rowSize value?) :
    totalSize (values.map f) ≤ totalSize values := by
  induction values with
  | nil => exact Nat.le_refl _
  | cons value? values ih =>
    obtain ⟨hfirst, hrest⟩ := List.forall_mem_cons.mp h
    exact Nat.add_le_add hfirst (ih hrest)

theorem part_of_member? (h : node.member? name = some m) : m.Part node := by
  cases node with
  | object span members =>
    obtain ⟨entry, hfind, rfl⟩ := Option.map_eq_some_iff.mp h
    exact .member (List.mem_of_find?_eq_some hfind) .self
  | _ => cases h

/-- A part of a value has no longer text than the value. -/
theorem len_le_of_part (h : Writes p cs node) (hm : m.Part node) : m.span.len ≤ node.span.len := by
  obtain ⟨before, own, after, rfl, hown⟩ := h.holds hm
  rw [hown.span_eq, h.span_eq, Utf8.width_append, Utf8.width_append]
  exact (Nat.le_add_right _ _).trans (Nat.le_add_left _ _)

end Json.Node

/-- The bytes of a cell, none if it is missing. -/
def cellSize (text? : Option String) : Nat := (text?.map String.utf8ByteSize).getD 0

theorem utf8ByteSize_eq (text : String) : text.utf8ByteSize = Utf8.width text.toList := by
  rw [← Utf8.size_utf8Encode, String.utf8Encode_toList]
  rfl

theorem foldl_size (texts : List String) (n : Nat) :
    texts.foldl (fun size text => size + text.utf8ByteSize) n =
      n + texts.foldl (fun size text => size + text.utf8ByteSize) 0 := by
  induction texts generalizing n with
  | nil => rfl
  | cons text texts ih =>
    rw [List.foldl_cons, List.foldl_cons, ih, ih (0 + text.utf8ByteSize)]
    omega

theorem textSize_cons (text? : Option String) (cells : List (Option String)) :
    (ColumnValues.utf8 (text? :: cells)).textSize =
      cellSize text? + (ColumnValues.utf8 cells).textSize := by
  cases text? with
  | none =>
    rw [ColumnValues.textSize, List.filterMap_cons_none rfl, cellSize, Option.map_none,
      Option.getD_none, Nat.zero_add]
    rfl
  | some text =>
    have hcons : (some text :: cells).filterMap id = text :: cells.filterMap id := rfl
    rw [ColumnValues.textSize, hcons, List.foldl_cons, foldl_size, Nat.zero_add]
    rfl

theorem textSize_le_totalSize
    (h : List.Forall₂ (fun value? text? => cellSize text? ≤ Node.rowSize value?) values cells) :
    (ColumnValues.utf8 cells).textSize ≤ Node.totalSize values := by
  induction h with
  | nil => exact Nat.le_refl _
  | cons hcell _ ih =>
    rw [textSize_cons]
    exact Nat.add_le_add hcell ih

/-! ## The records of a source -/

/-- A value that is read from a span is no longer than it. -/
theorem len_le_of_readTree (h : Scanner.readTree source span = .ok node) :
    node.span.len ≤ span.len := by
  obtain ⟨hfits, text, hslice, before, own, after, rfl, -, hwrites, -⟩ := readTree_eq_ok_iff.mp h
  have hsize := congrArg ByteArray.size hslice
  obtain ⟨hstop, -⟩ := ByteSource.size_slice hfits
  have hle : span.stop ≤ span.offset + span.len := Nat.mod_le _ _
  rw [hstop, Utf8.size_utf8Encode, Utf8.width_append, Utf8.width_append] at hsize
  rw [hwrites.span_eq]
  dsimp only
  omega

theorem Span.total_filter_le (keeps : Span → Bool) (spans : List Span) :
    total (spans.filter keeps) ≤ total spans := by
  induction spans with
  | nil => exact Nat.le_refl _
  | cons span spans ih =>
    rw [List.filter_cons]
    split
    · exact Nat.add_le_add_left ih _
    · exact ih.trans (Nat.le_add_left _ _)

theorem Lines.total_spansFrom_le (start : Nat) (bytes : List UInt8) :
    Span.total (spansFrom start (pieces bytes)) ≤ bytes.length := by
  induction bytes using Lines.induction generalizing start with
  | nil =>
    rw [pieces_nil]
    exact Nat.le_refl _
  | last line hline hne =>
    rw [pieces_last hline hne]
    exact textLength_le line
  | cons line rest hline ih =>
    have hline' := textLength_le line
    have hrest := ih (start + line.length + 1)
    rw [pieces_cons hline, spansFrom, Span.total, List.length_append, List.length_cons]
    dsimp only
    omega

/-- The records of a source take no more bytes than it. -/
theorem total_records_le (source : ByteSource) (skip : Bool) :
    Span.total (source.records skip) ≤ source.size := by
  have hall : Span.total (source.records false) ≤ source.size := by
    have hle := Lines.total_spansFrom_le 0 source.toList
    rwa [← records_eq_spansFrom, ByteSource.toList, Array.length_toList] at hle
  cases skip with
  | false => exact hall
  | true =>
    rw [records_skipping]
    exact (Span.total_filter_le _ _).trans hall

/-! ## Columns -/

namespace View

variable {root v : View}

/-- The bytes of the texts of all rows together. -/
def rowsSize (v : View) : Nat := Node.totalSize v.values

/-- The JSON text of a row. -/
theorem RawCell.size_le {value? : Option Node} (h : RawCell source value? text?) :
    cellSize text? ≤ Node.rowSize value? := by
  cases h with
  | absent => exact Nat.le_refl _
  | text hshows hwrites =>
    rw [Node.rowSize, Option.map_some, hwrites.span_eq]
    exact (utf8ByteSize_eq _).le

/-- What the text of a row spells. -/
theorem cellSize_le_of_holdsText {value? : Option Node} {raw? : Option String}
    (hraw : RawCell source value? raw?) (h : Convert.Cell Node.HoldsText value? text?) :
    cellSize text? ≤ Node.rowSize value? := by
  cases h with
  | value hholds =>
    obtain ⟨span, raw, rfl, hspells⟩ := hholds
    cases hraw with
    | text hshows hwrites =>
      obtain ⟨-, hquoted, -⟩ := id hwrites
      have hle := hspells.width_le
      rw [Node.rowSize, Option.map_some, hwrites.span_eq, cellSize, Option.map_some,
        Option.getD_some, Option.getD_some, utf8ByteSize_eq, hquoted, Utf8.width_cons,
        Utf8.width_append]
      dsimp only
      omega
  | _ => exact Nat.zero_le _

/-- **The texts of a column** take no more bytes than the rows. -/
theorem textSize_columnOf_le (hv : v.Sound) : v.columnOf.textSize ≤ v.rowsSize := by
  have hjson : (ColumnValues.utf8 v.toJsonText).textSize ≤ v.rowsSize :=
    textSize_le_totalSize ((rawCells hv).imp fun _ _ => RawCell.size_le)
  have htext : (ColumnValues.utf8 v.toText.values).textSize ≤ v.rowsSize := by
    refine textSize_le_totalSize ?_
    rw [values, toText, values_coerce, List.forall₂_map_left_iff, List.forall₂_map_right_iff,
      List.forall₂_same]
    intro row hrow
    have htext := textOf_of_stores (hv.stores row hrow)
    have hraw := rawCell_of_textOf htext
    exact cellSize_le_of_holdsText hraw (cell_of_class Convert.lawful_texts
      Convert.ofValues_texts hraw (class_outcome Convert.finds_text htext))
  unfold columnOf
  cases v.kind with
  | integer => cases v.widens <;> exact Nat.zero_le _
  | text => exact htext
  | array | record | any => exact hjson
  | _ => exact Nat.zero_le _

theorem exists_writes_of_mem_values (hv : v.Sound) (h : some m ∈ v.values) :
    ∃ p cs, Writes p cs m := by
  obtain ⟨row, hrow, hvalue⟩ := List.mem_map.mp h
  obtain ⟨-, hread⟩ := (hv.stores row hrow).valueOf_eq_some_iff.mp hvalue
  obtain ⟨-, text, -, before, own, after, -, -, hwrites, -⟩ := readTree_eq_ok_iff.mp hread
  exact ⟨_, own, hwrites⟩

/-- **The members of rows** take no more bytes than the rows. -/
theorem totalSize_member?_le (hv : v.Sound) (name : String) :
    Node.totalSize (v.values.map (·.bind (·.member? name))) ≤ v.rowsSize := by
  refine Node.totalSize_map_le fun value? hmem => ?_
  cases value? with
  | none => exact Nat.le_refl _
  | some node =>
    rw [Option.bind_some]
    cases hmember : node.member? name with
    | none => exact Nat.zero_le _
    | some m =>
      obtain ⟨p, cs, hwrites⟩ := exists_writes_of_mem_values hv hmem
      exact Node.len_le_of_part hwrites (Node.part_of_member? hmember)

/-- **The rows of a dataset that was loaded** take no more bytes than its source. -/
theorem rowsSize_root_le {config : Config} (hroot : load source config = .ok root) :
    root.rowsSize ≤ root.source.size := by
  have htotal : root.rowsSize ≤ Span.total root.records := by
    refine Node.totalSize_le_total fun k value? hvalue => ?_
    have hk : k < root.rowCount := by
      rw [← length_values]
      exact (List.getElem?_eq_some_iff.mp hvalue).1
    have hi : root.HasRow (k + 1) := ⟨Nat.le_add_left 1 k, hk⟩
    obtain ⟨span, m, hspan, hread, hm⟩ := valueAt_root hroot hi
    have hsame := getElem?_values hi
    rw [Nat.add_sub_cancel] at hsame hspan
    cases hvalue.symm.trans (hsame.trans (congrArg some hm))
    exact ⟨span, hspan, len_le_of_readTree hread⟩
  exact htotal.trans (total_records_le _ _)

end View

end JsonLines
