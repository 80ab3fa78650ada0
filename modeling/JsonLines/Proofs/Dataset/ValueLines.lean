/-
JsonLines.Proofs.Dataset.ValueLines — a source with a value on every line.

A text that writes a value and holds no line feed is a line (`line_of_writes`). A source that has
nothing but such lines, whether a line feed ends the last one or not, has their texts as its records
(`ByteSource.Lists.forall₂_records`), so it loads when the limits accept each value and the number
of them, and the rows have these texts (`View.exists_load_of_lists`).
-/
import JsonLines.Proofs.Coercion.Classification
import JsonLines.Proofs.Source.RecordTexts

namespace JsonLines

open Json Utf8

variable {source : ByteSource} {config : Config} {limits : Config.Limits} {skip : Bool}
  {cs : List Char} {lines : List (List Char)}

/-! ## Sources of lines -/

/-- The source has a line for each text, in order. A line feed may end the last line or not. -/
def ByteSource.Lists (source : ByteSource) (lines : List (List Char)) : Prop :=
  source.toList = bytesOf (joined lines) ∨
    source.toList = bytesOf (lines.flatMap fun line => line ++ ['\n'])

theorem lists_joined (lines : List (List Char)) :
    (ByteSource.ofString (String.ofList (joined lines))).Lists lines := by
  refine .inl ?_
  rw [bytesOf, ← toList_utf8Encode]
  rfl

/-- What stands on a line is all of its record. -/
theorem Line.kept_eq (h : Line cs) : Lines.kept skip (bytesOf cs) = [bytesOf cs] := by
  rw [Lines.kept, h.content_eq, List.filter_cons_of_pos, List.filter_nil]
  rw [h.not_isBlank, Bool.and_false]
  rfl

theorem texts_joined (h : ∀ cs ∈ lines, Line cs) :
    Lines.texts skip (bytesOf (joined lines)) = lines.map bytesOf := by
  induction lines with
  | nil => exact Lines.texts_nil
  | cons cs lines ih =>
    obtain ⟨hcs, hlines⟩ := List.forall_mem_cons.mp h
    cases lines with
    | nil =>
      rw [joined_singleton, Lines.texts_last hcs.lineFeed_not_mem hcs.ne_nil, hcs.kept_eq]
      rfl
    | cons next lines =>
      rw [joined_cons (List.cons_ne_nil next lines), bytesOf_newline,
        Lines.texts_cons hcs.lineFeed_not_mem, hcs.kept_eq, ih hlines]
      rfl

theorem texts_ended (h : ∀ cs ∈ lines, Line cs) :
    Lines.texts skip (bytesOf (lines.flatMap fun line => line ++ ['\n'])) =
      lines.map bytesOf := by
  induction lines with
  | nil => exact Lines.texts_nil
  | cons cs lines ih =>
    obtain ⟨hcs, hlines⟩ := List.forall_mem_cons.mp h
    rw [List.flatMap_cons, List.append_assoc, List.singleton_append, bytesOf_newline,
      Lines.texts_cons hcs.lineFeed_not_mem, hcs.kept_eq, ih hlines]
    rfl

/-- **The records of a source of lines** are its lines: each is shown where its record starts, and
its record reads as the value that it writes. -/
theorem ByteSource.Lists.forall₂_records (skip : Bool) (h : source.Lists lines)
    (hsize : source.size < Word.modulus) (hlines : ∀ cs ∈ lines, Line cs) :
    List.Forall₂ (fun span cs => source.Shows span.offset cs ∧
        ∀ m, Writes span.offset cs m → Scanner.readTree source span = .ok m)
      (source.records skip) lines := by
  have htexts : (source.records skip).map (fun span => (source.slice span).data.toList) =
      lines.map bytesOf := by
    rw [map_slice_records hsize]
    rcases h with h | h <;> rw [h]
    · exact texts_joined hlines
    · exact texts_ended hlines
  have hslices : List.Forall₂ (fun span cs => (source.slice span).data.toList = bytesOf cs)
      (source.records skip) lines := by
    rw [← List.forall₂_eq_eq_eq] at htexts
    exact List.forall₂_map_right_iff.mp (List.forall₂_map_left_iff.mp htexts)
  refine ((List.forall₂_and_left _ _).mpr ⟨fun span hspan => hspan, hslices⟩).imp ?_
  rintro span cs ⟨hspan, hslice⟩
  have hfits := fits_of_mem_records hsize hspan
  have hbytes : source.slice span = cs.utf8Encode := by
    refine ByteArray.ext (Array.toList_inj.mp ?_)
    rw [hslice, bytesOf, toList_utf8Encode]
  refine ⟨(shows_of_slice hfits hbytes).1, fun m hm => ?_⟩
  rw [readTree_of_slice hfits hbytes, Node.parse_of_writes hm]

/-! ## Loading -/

/-- The text is a line with one value that the limits accept, wherever it starts. -/
structure ValueLine (limits : Config.Limits) (cs : List Char) : Prop where
  no_feed : '\n' ∉ cs
  accepted : ∀ p, ∃ m, Writes p cs m ∧ m.WellNamed ∧ m.nesting ≤ limits.maxDepth

theorem ValueLine.line (h : ValueLine limits cs) : Line cs := by
  obtain ⟨m, hwrites, -⟩ := h.accepted 0
  exact View.line_of_writes hwrites h.no_feed

/-- **A source of accepted lines loads**, if there are no more of them than the limits allow, and
its rows have their texts. -/
theorem View.exists_load_of_lists (h : source.Lists lines) (hsize : source.size < Word.modulus)
    (hlines : ∀ cs ∈ lines, ValueLine config.limits cs)
    (hcount : lines.length ≤ Contents.rowLimit config.limits) :
    ∃ root, load source config = .ok root ∧ List.Forall₂
      (fun cs row => root.TextOf row (some (String.ofList cs))) lines root.rows.toList := by
  have hrecords := h.forall₂_records config.reading.skipBlankLines hsize
    fun cs hcs => (hlines cs hcs).line
  have hvalues : List.Forall₂ (fun span cs => source.Shows span.offset cs ∧ ∃ m,
      Writes span.offset cs m ∧ Scanner.readTree source span = .ok m ∧ m.WellNamed ∧
        m.nesting ≤ config.limits.maxDepth) (config.records source) lines := by
    refine List.Forall₂.flip (((List.forall₂_and_left _ _).mpr ⟨hlines, hrecords.flip⟩).imp ?_)
    rintro cs span ⟨hline, hshows, hreads⟩
    obtain ⟨m, hwrites, haccepted⟩ := hline.accepted span.offset
    exact ⟨hshows, m, hwrites, hreads m hwrites, haccepted⟩
  have hnone : ∀ position cause, ¬ FirstRefused source config position cause := by
    rintro position cause ⟨before, record, after, hall, -, -, hscan⟩
    have hmem : record ∈ config.records source := by simp [hall]
    obtain ⟨cs, -, -, m, -, hread, haccepted⟩ := exists_of_forall₂ hvalues.flip hmem
    have hpick : Pick.Accepted source config.limits ⟨some record, position⟩ := by
      rintro _ ⟨⟩
      exact ⟨m, hread, haccepted⟩
    obtain ⟨cell, hcell⟩ := exists_scanAlone_iff.mpr hpick
    cases hscan.symm.trans hcell
  obtain ⟨root, hload, hsource, -, -, hrows⟩ := (loadsAs_load source config).loaded
    (fun position cause hrefused => absurd hrefused (hnone position cause))
    (hrecords.length_eq ▸ hcount)
  refine ⟨root, hload, forall₂_of_shared hvalues hrows ?_⟩
  rintro span cs row ⟨hshows, m, hwrites, hread, -⟩ ⟨node, hread', hscanned, -⟩
  rw [hsource, hread] at hread'
  cases hread'
  have hoffset : m.span.offset = span.offset := by rw [hwrites.span_eq]
  refine .inr ⟨String.ofList cs, m, rfl, ?_, ?_, hscanned⟩
  · rwa [String.toList_ofList, hoffset]
  · rwa [String.toList_ofList, hsource, hoffset]

end JsonLines
