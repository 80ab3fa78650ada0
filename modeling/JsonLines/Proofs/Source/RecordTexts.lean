/-
JsonLines.Proofs.Source.RecordTexts — the texts of records, without their places.

`Lines.texts` gives the texts of the records that some bytes hold. Bytes are taken apart line by
line (`Lines.induction`): each line gives its text, unless it is blank and blank lines are skipped.
So a carriage return before every line feed changes no text (`texts_withReturns`), and neither do
blank lines between lines or at the end, when blank lines are skipped (`texts_padded`). The spans of
the records of a source cut out these texts (`map_slice_records`).
-/
import JsonLines.Proofs.Source.Lines

namespace JsonLines

namespace Lines

variable {bytes line rest before after gap record : List UInt8} {skip : Bool} {start : Nat}

/-- **Bytes, line by line**: nothing, a last line that nothing ends, or a line and more. -/
theorem induction {P : List UInt8 → Prop} (nil : P [])
    (last : ∀ line, lineFeed ∉ line → line ≠ [] → P line)
    (cons : ∀ line rest, lineFeed ∉ line → P rest → P (line ++ lineFeed :: rest))
    (bytes : List UInt8) : P bytes := by
  induction hlen : bytes.length using Nat.strongRecOn generalizing bytes with
  | ind n ih =>
    by_cases hmem : lineFeed ∈ bytes
    · obtain ⟨line, rest, rfl, hline⟩ := List.eq_append_cons_of_mem hmem
      rw [List.length_append, List.length_cons] at hlen
      exact cons line rest hline (ih rest.length (by omega) rest rfl)
    · by_cases hne : bytes = []
      · exact hne ▸ nil
      · exact last bytes hmem hne

/-- The texts of the lines. -/
def contents (start : Nat) (bytes : List UInt8) : List (List UInt8) :=
  (split start bytes).map fun place => content place.2

/-- The texts of the records, without the blank ones if asked so. -/
def texts (skip : Bool) (bytes : List UInt8) : List (List UInt8) :=
  (contents 0 bytes).filter fun record => !(skip && isBlank record)

/-- What a line adds to the texts. -/
def kept (skip : Bool) (line : List UInt8) : List (List UInt8) :=
  [content line].filter fun record => !(skip && isBlank record)

/-- Where lines start does not matter to their texts. -/
theorem contents_eq (start : Nat) (bytes : List UInt8) :
    contents start bytes = contents 0 bytes := by
  induction bytes using Lines.induction generalizing start with
  | nil => rw [contents, contents, split_nil, split_nil]
  | last line hline hne => simp only [contents, split_last hline hne, List.map_cons, List.map_nil]
  | cons line rest hline ih =>
    have htail := ih (start + line.length + 1)
    rw [← ih (0 + line.length + 1)] at htail
    simp only [contents, split_append hline, List.map_cons] at htail ⊢
    rw [htail]

theorem texts_nil : texts skip [] = [] := by
  rw [texts, contents, split_nil]
  rfl

theorem texts_last (hline : lineFeed ∉ line) (hne : line ≠ []) :
    texts skip line = kept skip line := by
  rw [texts, contents, split_last hline hne]
  rfl

theorem texts_cons (hline : lineFeed ∉ line) :
    texts skip (line ++ lineFeed :: rest) = kept skip line ++ texts skip rest := by
  have htail := contents_eq (0 + line.length + 1) rest
  rw [contents] at htail
  have hsplit : contents 0 (line ++ lineFeed :: rest) = [content line] ++ contents 0 rest := by
    rw [contents, split_append hline, List.map_cons, htail]
    rfl
  rw [texts, hsplit, List.filter_append, kept, texts]

/-! ## Carriage returns -/

/-- A carriage return before every line feed. -/
def withReturns (bytes : List UInt8) : List UInt8 :=
  bytes.flatMap fun b => if b = lineFeed then [carriageReturn, lineFeed] else [b]

theorem withReturns_of_not_mem (hline : lineFeed ∉ line) : withReturns line = line := by
  induction line with
  | nil => rfl
  | cons b line ih =>
    rw [List.mem_cons, not_or] at hline
    have htail := ih hline.2
    rw [withReturns] at htail ⊢
    rw [List.flatMap_cons, htail, if_neg (Ne.symm hline.1)]
    rfl

theorem withReturns_cons (hline : lineFeed ∉ line) : withReturns (line ++ lineFeed :: rest) =
    (line ++ [carriageReturn]) ++ lineFeed :: withReturns rest := by
  have hfirst := withReturns_of_not_mem hline
  rw [withReturns] at hfirst
  rw [withReturns, List.flatMap_append, hfirst, List.flatMap_cons, if_pos rfl, withReturns]
  simp only [List.append_assoc, List.cons_append, List.nil_append]

/-- The carriage return that ends a line is no part of its text. -/
theorem content_append_return (line : List UInt8) : content (line ++ [carriageReturn]) = line := by
  rw [content, if_pos List.getLast?_concat, List.dropLast_concat]

theorem content_of_not_mem (h : carriageReturn ∉ line) : content line = line := by
  rw [content, if_neg fun hlast => h (List.mem_of_getLast? hlast)]

/-- **Carriage returns before all line feeds change no text.** -/
theorem texts_withReturns (h : carriageReturn ∉ bytes) :
    texts skip (withReturns bytes) = texts skip bytes := by
  induction bytes using Lines.induction with
  | nil => rfl
  | last line hline hne => rw [withReturns_of_not_mem hline]
  | cons line rest hline ih =>
    simp only [List.mem_append, List.mem_cons, not_or] at h
    have hfeed : lineFeed ∉ line ++ [carriageReturn] := by
      rw [List.mem_append, not_or]
      exact ⟨hline, by decide⟩
    have hkept : kept skip (line ++ [carriageReturn]) = kept skip line := by
      rw [kept, kept, content_append_return, content_of_not_mem h.1]
    rw [withReturns_cons hline, texts_cons hfeed, texts_cons hline, hkept, ih h.2.2]

/-! ## Blank lines -/

/-- The bytes end where a line ends. -/
def Closed (bytes : List UInt8) : Prop := bytes = [] ∨ bytes.getLast? = some lineFeed

/-- All bytes are of those that blank lines are made of. -/
def Blank (bytes : List UInt8) : Prop := ∀ b ∈ bytes, isBlankByte b = true

/-- The second text is the first one with more blank lines: between two lines, before the first one,
or after the last one. -/
inductive Padded (bytes : List UInt8) : List UInt8 → Prop where
  | refl : Padded bytes bytes
  | insert {before after gap : List UInt8} : Padded bytes (before ++ after) → Closed before →
    Closed gap → Blank gap → Padded bytes (before ++ (gap ++ after))
  | extend {text gap : List UInt8} : Padded bytes text → Blank gap →
    Padded bytes (text ++ lineFeed :: gap)

theorem closed_tail (h : Closed (line ++ lineFeed :: rest)) : Closed rest := by
  rcases h with h | h
  · exact absurd h (by simp)
  · cases rest with
    | nil => exact .inl rfl
    | cons b rest =>
      refine .inr ?_
      simpa [List.getLast?_append, List.getLast?_cons] using h

theorem texts_append (h : Closed before) :
    texts skip (before ++ after) = texts skip before ++ texts skip after := by
  induction before using Lines.induction with
  | nil => rw [texts_nil, List.nil_append, List.nil_append]
  | last line hline hne =>
    rcases h with rfl | h
    · exact absurd rfl hne
    · exact absurd (List.mem_of_getLast? h) hline
  | cons line rest hline ih =>
    rw [List.append_assoc, List.cons_append, texts_cons hline, texts_cons hline,
      ih (closed_tail h), List.append_assoc]

theorem kept_blank (h : Blank line) : kept true line = [] := by
  obtain ⟨after, hline⟩ := content_prefix line
  have hblank : isBlank (content line) = true := by
    rw [isBlank, List.all_eq_true]
    intro b hb
    exact h b (hline ▸ List.mem_append_left after hb)
  simp [kept, hblank]

/-- Blank lines alone give no record. -/
theorem texts_blank (h : Blank gap) : texts true gap = [] := by
  induction gap using Lines.induction with
  | nil => exact texts_nil
  | last line hline hne => rw [texts_last hline hne, kept_blank h]
  | cons line rest hline ih =>
    rw [texts_cons hline, kept_blank fun b hb => h b (List.mem_append_left _ hb),
      ih fun b hb => h b (List.mem_append_right _ (List.mem_cons_of_mem _ hb)), List.append_nil]

/-- One more line feed at the end. -/
theorem texts_append_feed (bytes : List UInt8) :
    texts true (bytes ++ [lineFeed]) = texts true bytes := by
  induction bytes using Lines.induction with
  | nil =>
    rw [List.nil_append, texts_nil]
    exact texts_blank (List.forall_mem_singleton.mpr rfl)
  | last line hline hne => rw [texts_cons hline, texts_nil, List.append_nil, texts_last hline hne]
  | cons line rest hline ih =>
    rw [List.append_assoc, List.cons_append, texts_cons hline, texts_cons hline, ih]

/-- **Blank lines change no text** when they are skipped. -/
theorem texts_padded {padded : List UInt8} (h : Padded bytes padded) :
    texts true padded = texts true bytes := by
  induction h with
  | refl => rfl
  | @insert before after gap _ hbefore hclosed hblank ih =>
    rw [texts_append hbefore, texts_append hclosed, texts_blank hblank, List.nil_append,
      ← texts_append hbefore, ih]
  | @extend text gap _ hblank ih =>
    -- The last line may have had no line feed, so the gap starts after the one that is added.
    have hclosed : Closed (text ++ [lineFeed]) := .inr List.getLast?_concat
    have hsplit : text ++ lineFeed :: gap = (text ++ [lineFeed]) ++ gap := by simp
    rw [hsplit, texts_append hclosed, texts_blank hblank, List.append_nil, texts_append_feed, ih]

end Lines

/-! ## The records of a source -/

variable {source : ByteSource} {skip : Bool} {span : Span}

/-- The text of a line is cut out of the source by the span that it gives. -/
theorem slice_of_mem_split {offset : Nat} {line : List UInt8} (hsize : source.size < Word.modulus)
    (h : (offset, line) ∈ Lines.split 0 source.toList) :
    Span.fits ⟨offset, (Lines.content line).length⟩ source.size ∧
      (source.slice ⟨offset, (Lines.content line).length⟩).data.toList = Lines.content line := by
  obtain ⟨-, before, after, hbytes, rfl⟩ := Lines.split_place h
  obtain ⟨rest, hrest⟩ := Lines.content_prefix line
  generalize Lines.content line = text at hrest ⊢
  subst hrest
  have hdata : source.bytes.data.toList = before ++ (text ++ rest ++ after) := hbytes
  have hlength : source.size = before.length + (text.length + rest.length + after.length) := by
    have hlen := congrArg List.length hdata
    simp only [List.length_append, Array.length_toList] at hlen
    exact hlen
  rw [Nat.zero_add]
  have hstop : Span.stop ⟨before.length, text.length⟩ = before.length + text.length :=
    Nat.mod_eq_of_lt (by dsimp only; omega)
  have hfits : Span.fits ⟨before.length, text.length⟩ source.size := by
    simp only [Span.fits, hstop, Bool.and_eq_true, decide_eq_true_eq]
    omega
  refine ⟨hfits, ?_⟩
  rw [ByteSource.slice, if_pos hfits, hstop, ByteArray.data_extract, Array.toList_extract,
    List.extract_eq_take_drop, hdata, List.drop_left]
  rw [Nat.add_sub_cancel_left, List.append_assoc, List.take_left]

/-- Every record is a range of the source. -/
theorem fits_of_mem_records (hsize : source.size < Word.modulus)
    (h : span ∈ source.records skip) : span.fits source.size := by
  simp only [ByteSource.records, ByteSource.lines, List.mem_map, List.mem_filter] at h
  obtain ⟨⟨offset, record⟩, ⟨⟨⟨start, line⟩, hsplit, heq⟩, -⟩, rfl⟩ := h
  cases heq
  exact (slice_of_mem_split hsize hsplit).1

/-- **The records of a source cut out the texts.** -/
theorem map_slice_records (hsize : source.size < Word.modulus) :
    (source.records skip).map (fun span => (source.slice span).data.toList) =
      Lines.texts skip source.toList := by
  have hlines : ∀ place ∈ source.lines skip,
      (source.slice ⟨place.1, place.2.length⟩).data.toList = place.2 := by
    rintro place hplace
    simp only [ByteSource.lines, List.mem_filter, List.mem_map] at hplace
    obtain ⟨⟨⟨start, line⟩, hsplit, rfl⟩, -⟩ := hplace
    exact (slice_of_mem_split hsize hsplit).2
  rw [ByteSource.records, List.map_map]
  calc (source.lines skip).map _ = (source.lines skip).map Prod.snd :=
        List.map_congr_left fun place hplace => hlines place hplace
    _ = Lines.texts skip source.toList := by
        rw [ByteSource.lines, Lines.texts, Lines.contents, List.filter_map, List.filter_map,
          List.map_map]
        rfl

/-- Records of the same texts cut out the same bytes. -/
theorem map_slice_records_congr {source' : ByteSource} {skip' : Bool}
    (hsize : source.size < Word.modulus) (hsize' : source'.size < Word.modulus)
    (h : Lines.texts skip source.toList = Lines.texts skip' source'.toList) :
    (source.records skip).map source.slice = (source'.records skip').map source'.slice := by
  rw [← map_slice_records hsize, ← map_slice_records hsize'] at h
  have hinj : ∀ a b : ByteArray, a.data.toList = b.data.toList → a = b := fun a b hab =>
    ByteArray.ext (Array.toList_inj.mp hab)
  refine (List.map_inj_right (f := fun bytes : ByteArray => bytes.data.toList) hinj).mp ?_
  simpa only [List.map_map, Function.comp_def] using h

end JsonLines
