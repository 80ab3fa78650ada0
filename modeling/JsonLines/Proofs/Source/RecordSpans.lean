/-
JsonLines.Proofs.Source.RecordSpans — the spans of records are exactly those of the lines.

The lines of some bytes are the pieces between line feeds, where an empty last piece is none
(`Lines.pieces`); nothing in that mentions how a source is split. The records of a source have one
span for each line (`records_eq_spansFrom`), and from the list of these spans everything else is
read off: they stand in the order of the lines and apart from each other, and what no span covers
are line feeds and the carriage returns that end a line (`Lines.terminator_of_uncovered`). So lines
that are written down with line feeds, or carriage returns and line feeds, are split into the same
lines again (`Lines.texts_written`).
-/
import JsonLines.Proofs.Source.RecordTexts

namespace JsonLines

namespace Lines

variable {bytes line rest : List UInt8} {lines : List (List UInt8)} {start i k : Nat} {b : UInt8}
  {span : Span}

/-! ## Lines -/

/-- The lines: the pieces between line feeds. After a final line feed comes no line, and there is
none in no bytes at all. -/
def pieces (bytes : List UInt8) : List (List UInt8) :=
  if (bytes.splitOn lineFeed).getLast? = some [] then (bytes.splitOn lineFeed).dropLast
  else bytes.splitOn lineFeed

theorem pieces_nil : pieces [] = [] := by
  rw [pieces, List.splitOn_nil]
  rfl

theorem pieces_last (hline : lineFeed ∉ line) (hne : line ≠ []) : pieces line = [line] := by
  rw [pieces, List.splitOn_eq_singleton hline, if_neg]
  simpa using hne

theorem pieces_cons (hline : lineFeed ∉ line) :
    pieces (line ++ lineFeed :: rest) = line :: pieces rest := by
  have hne := List.splitOn_ne_nil lineFeed rest
  rw [pieces, pieces, List.splitOn_append_cons_self_of_not_mem hline,
    List.getLast?_cons_of_ne_nil hne, List.dropLast_cons_of_ne_nil hne]
  split <;> rfl

/-- The offset of the first byte of the line at an index: each line before it takes its bytes and a
line feed. -/
def offset (lines : List (List UInt8)) (k : Nat) : Nat :=
  ((lines.take k).flatMap fun line => line ++ [lineFeed]).length

theorem offset_cons_succ (line : List UInt8) (lines : List (List UInt8)) (k : Nat) :
    offset (line :: lines) (k + 1) = line.length + 1 + offset lines k := by
  rw [offset, List.take_succ_cons, List.flatMap_cons, List.length_append, List.length_append,
    List.length_singleton, offset]

/-- The length of a line, less one if it ends in a carriage return. -/
def textLength (line : List UInt8) : Nat :=
  if line.getLast? = some carriageReturn then line.length - 1 else line.length

theorem length_content (line : List UInt8) : (content line).length = textLength line := by
  unfold content textLength
  split
  · exact List.length_dropLast
  · rfl

theorem textLength_le (line : List UInt8) : textLength line ≤ line.length := by
  unfold textLength
  split <;> omega

/-! ## The spans of lines -/

/-- The spans of lines, the first of which starts at an offset. -/
def spansFrom (start : Nat) : List (List UInt8) → List Span
  | [] => []
  | line :: lines => ⟨start, textLength line⟩ :: spansFrom (start + line.length + 1) lines

theorem map_split (start : Nat) (bytes : List UInt8) :
    ((split start bytes).map fun place => (⟨place.1, (content place.2).length⟩ : Span)) =
      spansFrom start (pieces bytes) := by
  induction bytes using Lines.induction generalizing start with
  | nil => rw [split_nil, pieces_nil, spansFrom, List.map_nil]
  | last line hline hne =>
    rw [split_last hline hne, pieces_last hline hne, List.map_singleton, length_content]
    rfl
  | cons line rest hline ih =>
    rw [split_append hline, pieces_cons hline, List.map_cons, ih, length_content]
    rfl

theorem getElem?_spansFrom (start : Nat) (lines : List (List UInt8)) (k : Nat) :
    (spansFrom start lines)[k]? =
      lines[k]?.map fun line => ⟨start + offset lines k, textLength line⟩ := by
  induction lines generalizing start k with
  | nil => rfl
  | cons line lines ih =>
    cases k with
    | zero => rfl
    | succ k =>
      have hoffset : start + offset (line :: lines) (k + 1) =
          start + line.length + 1 + offset lines k := by
        rw [offset_cons_succ]
        omega
      rw [spansFrom, List.getElem?_cons_succ, List.getElem?_cons_succ, ih, hoffset]

theorem le_offset_of_mem_spansFrom (h : span ∈ spansFrom start lines) : start ≤ span.offset := by
  induction lines generalizing start with
  | nil => cases h
  | cons line lines ih =>
    rcases List.mem_cons.mp h with rfl | h
    · exact Nat.le_refl _
    · have := ih h
      omega

/-- **The spans of lines follow one another**, with a byte at least between two of them. -/
theorem pairwise_spansFrom (start : Nat) (lines : List (List UInt8)) :
    (spansFrom start lines).Pairwise fun a b => a.offset + a.len < b.offset := by
  induction lines generalizing start with
  | nil => exact .nil
  | cons line lines ih =>
    refine .cons (fun b hb => ?_) (ih _)
    have hle := textLength_le line
    have hstart := le_offset_of_mem_spansFrom hb
    dsimp only
    omega

theorem stop_le_of_mem_spansFrom (h : span ∈ spansFrom start (pieces bytes)) :
    span.offset + span.len ≤ start + bytes.length := by
  induction bytes using Lines.induction generalizing start with
  | nil =>
    rw [pieces_nil] at h
    cases h
  | last line hline hne =>
    rw [pieces_last hline hne] at h
    have hle := textLength_le line
    cases List.mem_singleton.mp h
    dsimp only
    omega
  | cons line rest hline ih =>
    rw [pieces_cons hline] at h
    rw [List.length_append, List.length_cons]
    rcases List.mem_cons.mp h with rfl | h
    · have hle := textLength_le line
      dsimp only
      omega
    · have := ih h
      omega

/-- **A line stands at its offset.** -/
theorem exists_append_of_getElem?_pieces (h : (pieces bytes)[k]? = some line) :
    ∃ before after, bytes = before ++ (line ++ after) ∧
      before.length = offset (pieces bytes) k := by
  induction bytes using Lines.induction generalizing k with
  | nil =>
    rw [pieces_nil] at h
    cases h
  | last first hfirst hne =>
    rw [pieces_last hfirst hne] at h ⊢
    obtain ⟨hk, heq⟩ := List.getElem?_eq_some_iff.mp h
    have hzero : k = 0 := by
      rw [List.length_singleton] at hk
      omega
    subst hzero
    exact ⟨[], [], by rw [← heq]; simp, rfl⟩
  | cons first rest hfirst ih =>
    rw [pieces_cons hfirst] at h ⊢
    cases k with
    | zero =>
      cases h
      exact ⟨[], lineFeed :: rest, rfl, rfl⟩
    | succ k =>
      obtain ⟨before, after, hrest, hbefore⟩ := ih h
      refine ⟨first ++ lineFeed :: before, after, ?_, ?_⟩
      · rw [List.append_assoc, List.cons_append, ← hrest]
      · rw [offset_cons_succ, List.length_append, List.length_cons, hbefore]
        omega

/-! ## What no span covers -/

/-- The byte at an index is inside the span. -/
def Covers (span : Span) (i : Nat) : Prop := span.offset ≤ i ∧ i < span.offset + span.len

theorem not_covers_iff {offset len : Nat} :
    ¬ Covers ⟨offset, len⟩ (offset + i) ↔ len ≤ i := by
  unfold Covers
  dsimp only
  omega

/-- The byte is a line feed, or a carriage return that a line feed or nothing follows. -/
def Terminator (b : UInt8) (next? : Option UInt8) : Prop :=
  b = lineFeed ∨ b = carriageReturn ∧ ∀ next ∈ next?, next = lineFeed

/-- A byte of a line that its text leaves out is the carriage return at its end. -/
theorem eq_return_of_textLength_le (h : bytes[i]? = some b) (hi : textLength bytes ≤ i) :
    b = carriageReturn ∧ i + 1 = bytes.length := by
  obtain ⟨hlt, hget⟩ := List.getElem?_eq_some_iff.mp h
  unfold textLength at hi
  split at hi
  · rename_i hlast
    have hend : i = bytes.length - 1 := by omega
    rw [List.getLast?_eq_getElem?, ← hend, h] at hlast
    exact ⟨Option.some.inj hlast, by omega⟩
  · omega

/-- **What no span covers ends a line.** -/
theorem terminator_of_uncovered (h : bytes[i]? = some b)
    (huncovered : ∀ span ∈ spansFrom start (pieces bytes), ¬ Covers span (start + i)) :
    Terminator b bytes[i + 1]? := by
  induction bytes using Lines.induction generalizing start i with
  | nil => cases h
  | last line hline hne =>
    rw [pieces_last hline hne] at huncovered
    have hfirst := huncovered ⟨start, textLength line⟩ List.mem_cons_self
    obtain ⟨hb, hi⟩ := eq_return_of_textLength_le h (by rw [not_covers_iff] at hfirst; omega)
    refine .inr ⟨hb, ?_⟩
    rw [List.getElem?_eq_none (by omega)]
    simp
  | cons line rest hline ih =>
    rw [pieces_cons hline] at huncovered
    have hfirst := huncovered ⟨start, textLength line⟩ List.mem_cons_self
    have hrest := fun span hspan => huncovered span (List.mem_cons_of_mem _ hspan)
    rcases Nat.lt_trichotomy i line.length with hlt | rfl | hgt
    · rw [List.getElem?_append_left hlt] at h
      obtain ⟨hb, hi⟩ := eq_return_of_textLength_le h (by rw [not_covers_iff] at hfirst; omega)
      refine .inr ⟨hb, ?_⟩
      rw [hi, List.getElem?_append_right (Nat.le_refl _), Nat.sub_self]
      simp
    · rw [List.getElem?_append_right (Nat.le_refl _), Nat.sub_self] at h
      cases h
      exact .inl rfl
    · -- The bytes past the line feed are those of the other lines.
      obtain ⟨j, rfl⟩ := Nat.exists_eq_add_of_lt hgt
      have hshift : ∀ n, (line ++ lineFeed :: rest)[line.length + n + 1]? = rest[n]? := by
        intro n
        rw [List.getElem?_append_right (by omega), Nat.add_assoc, Nat.add_sub_cancel_left,
          List.getElem?_cons_succ]
      rw [hshift] at h
      rw [Nat.add_assoc, Nat.add_assoc, ← Nat.add_assoc j, ← Nat.add_assoc, hshift]
      refine ih h fun span hspan hcovers => hrest span hspan ?_
      unfold Covers at hcovers ⊢
      omega

/-! ## Lines that are written down -/

/-- What ends a line: a line feed, with or without a carriage return before it. -/
def ending (withReturn : Bool) : List UInt8 :=
  if withReturn then [carriageReturn, lineFeed] else [lineFeed]

/-- Lines written one after the other, each with its ending. -/
def written (lines : List (List UInt8 × Bool)) : List UInt8 :=
  lines.flatMap fun line => line.1 ++ ending line.2

theorem content_of_getLast?_ne (h : line.getLast? ≠ some carriageReturn) : content line = line :=
  if_neg h

/-- **Lines that are written down are the texts that are read**, whatever ends each of them. -/
theorem texts_written {lines : List (List UInt8 × Bool)}
    (h : ∀ line ∈ lines, lineFeed ∉ line.1 ∧ line.1.getLast? ≠ some carriageReturn) :
    texts false (written lines) = lines.map (·.1) := by
  induction lines with
  | nil => exact texts_nil
  | cons first lines ih =>
    obtain ⟨⟨hfeed, hreturn⟩, hlines⟩ := List.forall_mem_cons.mp h
    obtain ⟨line, withReturn⟩ := first
    rw [written, List.flatMap_cons, ← written, List.map_cons, ← ih hlines]
    cases withReturn with
    | false =>
      have hcontent : content line = line := content_of_getLast?_ne hreturn
      rw [ending, if_neg Bool.false_ne_true, List.append_assoc, List.singleton_append,
        texts_cons hfeed, kept, hcontent]
      rfl
    | true =>
      have hfeed' : lineFeed ∉ line ++ [carriageReturn] := by
        rw [List.mem_append, not_or]
        exact ⟨hfeed, by decide⟩
      have hsplit : line ++ ending true ++ written lines =
          (line ++ [carriageReturn]) ++ lineFeed :: written lines := by
        simp [ending]
      rw [hsplit, texts_cons hfeed', kept, content_append_return]
      rfl

end Lines

/-! ## The records of a source -/

variable {source : ByteSource} {skip : Bool} {span : Span}

/-- The bytes of a source that a span covers. -/
def ByteSource.textAt (source : ByteSource) (span : Span) : List UInt8 :=
  (source.toList.drop span.offset).take span.len

theorem textAt_of_mem_split {offset : Nat} {line : List UInt8}
    (h : (offset, line) ∈ Lines.split 0 source.toList) :
    source.textAt ⟨offset, (Lines.content line).length⟩ = Lines.content line := by
  obtain ⟨-, before, after, hbytes, rfl⟩ := Lines.split_place h
  obtain ⟨rest, hrest⟩ := Lines.content_prefix line
  generalize Lines.content line = text at hrest ⊢
  subst hrest
  rw [ByteSource.textAt, hbytes]
  dsimp only
  rw [Nat.zero_add, List.drop_left, List.append_assoc, List.take_left]

theorem textAt_of_mem_lines {place : Nat × List UInt8} (h : place ∈ source.lines skip) :
    source.textAt ⟨place.1, place.2.length⟩ = place.2 := by
  simp only [ByteSource.lines, List.mem_filter, List.mem_map] at h
  obtain ⟨⟨⟨start, line⟩, hsplit, rfl⟩, -⟩ := h
  exact textAt_of_mem_split hsplit

/-- The bytes that a span covers are those that are read of it. -/
theorem slice_eq_textAt (hsize : source.size < Word.modulus) (h : span ∈ source.records skip) :
    (source.slice span).data.toList = source.textAt span := by
  simp only [ByteSource.records, ByteSource.lines, List.mem_map, List.mem_filter] at h
  obtain ⟨_, ⟨⟨⟨start, line⟩, hsplit, rfl⟩, -⟩, rfl⟩ := h
  rw [(slice_of_mem_split hsize hsplit).2, textAt_of_mem_split hsplit]

/-- **One span for each line.** -/
theorem records_eq_spansFrom (source : ByteSource) :
    source.records false = Lines.spansFrom 0 (Lines.pieces source.toList) := by
  have hall : source.lines false = (Lines.split 0 source.toList).map fun place =>
      (place.1, Lines.content place.2) := List.filter_eq_self.mpr fun _ _ => rfl
  rw [ByteSource.records, hall, List.map_map, ← Lines.map_split]
  rfl

/-- **Skipping blank lines** keeps the spans of all other lines. -/
theorem records_skipping (source : ByteSource) : source.records true =
    (source.records false).filter fun span => !Lines.isBlank (source.textAt span) := by
  have hskip : source.lines true = (source.lines false).filter fun place =>
      !Lines.isBlank place.2 := by
    rw [ByteSource.lines, ByteSource.lines, List.filter_filter]
    exact List.filter_congr fun place _ => by simp
  rw [ByteSource.records, ByteSource.records, hskip, List.filter_map]
  refine congrArg (List.map _) (List.filter_congr fun place hplace => ?_)
  rw [Function.comp_apply, textAt_of_mem_lines hplace]

/-- The spans of records cover the texts of records. -/
theorem map_textAt_records (source : ByteSource) (skip : Bool) :
    (source.records skip).map source.textAt = Lines.texts skip source.toList := by
  rw [ByteSource.records, List.map_map]
  calc (source.lines skip).map _ = (source.lines skip).map Prod.snd :=
        List.map_congr_left fun _ hplace => textAt_of_mem_lines hplace
    _ = Lines.texts skip source.toList := by
        rw [ByteSource.lines, Lines.texts, Lines.contents, List.filter_map, List.filter_map,
          List.map_map]
        rfl

/-- How the records of a source go with its lines. -/
structure ByteSource.SplitsExactly (source : ByteSource) : Prop where
  /-- There is one span for each line, from its first byte on and without the carriage return at its
  end. -/
  span : ∀ k, (source.records false)[k]? = (Lines.pieces source.toList)[k]?.map fun line =>
    (⟨Lines.offset (Lines.pieces source.toList) k, Lines.textLength line⟩ : Span)
  /-- The bytes at that offset are those of the line. -/
  place : ∀ k line, (Lines.pieces source.toList)[k]? = some line →
    line <+: source.toList.drop (Lines.offset (Lines.pieces source.toList) k)
  inside : ∀ span ∈ source.records false, span.offset + span.len ≤ source.size
  /-- What is read of a span are its bytes, where offsets are words. -/
  slice : source.size < Word.modulus → ∀ span ∈ source.records false,
    (source.slice span).data.toList = source.textAt span
  /-- The spans follow one another and do not touch. -/
  apart : (source.records false).Pairwise fun a b => a.offset + a.len < b.offset
  /-- Outside of all spans there are only ends of lines. -/
  outside : ∀ (i : Nat) b, source.toList[i]? = some b →
    (∀ span ∈ source.records false, ¬ Lines.Covers span i) →
      Lines.Terminator b source.toList[i + 1]?
  /-- The records that are kept when blank lines are skipped have another byte than space, tab, line
  feed, form feed and carriage return. -/
  skipping : source.records true = (source.records false).filter fun span =>
    (source.textAt span).any fun b => b ∉ ([32, 9, 10, 12, 13] : List UInt8)
  /-- Written lines are read again. -/
  written : ∀ lines : List (List UInt8 × Bool),
    (∀ line ∈ lines, Lines.lineFeed ∉ line.1 ∧ line.1.getLast? ≠ some Lines.carriageReturn) →
      source.toList = Lines.written lines →
        (source.records false).map source.textAt = lines.map (·.1)

theorem Lines.not_isBlank_eq (record : List UInt8) : (!isBlank record) =
    record.any fun b => b ∉ ([32, 9, 10, 12, 13] : List UInt8) := by
  rw [isBlank, List.not_all_eq_any_not]
  refine congrArg (List.any record) (funext fun b => ?_)
  simp only [isBlankByte, List.mem_cons, List.not_mem_nil, or_false]
  grind

/-- **A source is split into records exactly at its lines.** -/
theorem splitsExactly (source : ByteSource) : source.SplitsExactly where
  span k := by
    rw [records_eq_spansFrom, Lines.getElem?_spansFrom, Nat.zero_add]
  place k line h := by
    obtain ⟨before, after, hbytes, hbefore⟩ := Lines.exists_append_of_getElem?_pieces h
    rw [← hbefore, hbytes, List.drop_left]
    exact List.prefix_append line after
  inside span h := by
    rw [records_eq_spansFrom] at h
    have hle := Lines.stop_le_of_mem_spansFrom h
    rwa [Nat.zero_add] at hle
  slice hsize span h := slice_eq_textAt hsize h
  apart := by
    rw [records_eq_spansFrom]
    exact Lines.pairwise_spansFrom 0 _
  outside i b h huncovered := by
    rw [records_eq_spansFrom] at huncovered
    exact Lines.terminator_of_uncovered h fun span hspan => by
      rw [Nat.zero_add]
      exact huncovered span hspan
  skipping := by
    rw [records_skipping]
    exact List.filter_congr fun span _ => Lines.not_isBlank_eq _
  written lines h hbytes := by
    rw [map_textAt_records, hbytes, Lines.texts_written h]

end JsonLines
