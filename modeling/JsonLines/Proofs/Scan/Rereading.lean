/-
JsonLines.Proofs.Scan.Rereading — every value of a source reads again from its own span.

`Shows source p cs` says that the bytes of the source from position `p` on are those of the
characters `cs`. A span reads as a value when the source shows a text there that writes the value
(`shows_of_readTree`). Since the text of a value holds the text of each of its parts, a part that
is read from its own span is the same part (`readTree_part`): spans that are kept need not be
checked again.
-/
import JsonLines.Scan.Scanner
import JsonLines.Proofs.Json.Reading

namespace JsonLines

open Utf8 Json

/-- The characters stand in the source from a position on, which a word can hold to the end. -/
def ByteSource.Shows (source : ByteSource) (p : Nat) (cs : List Char) : Prop :=
  ∃ before after : ByteArray, source.bytes = before ++ (cs.utf8Encode ++ after) ∧
    before.size = p ∧ p + width cs < Word.modulus

variable {source : ByteSource} {p : Nat} {cs ds : List Char} {span : Span} {node m : Node}

namespace ByteSource

/-- What stands in the middle of shown characters is shown. -/
theorem Shows.within {first last : List Char} (h : source.Shows p (first ++ (cs ++ last))) :
    source.Shows (p + width first) cs := by
  obtain ⟨before, after, hbytes, rfl, hlt⟩ := h
  simp only [width_append] at hlt
  refine ⟨before ++ first.utf8Encode, last.utf8Encode ++ after, ?_, ?_, by omega⟩
  · rw [hbytes, List.utf8Encode_append, List.utf8Encode_append]
    simp only [ByteArray.append_assoc]
  · rw [ByteArray.size_append, size_utf8Encode]

theorem Shows.left {last : List Char} (h : source.Shows p (cs ++ last)) : source.Shows p cs := by
  have hwithin : source.Shows p ([] ++ (cs ++ last)) := h
  exact hwithin.within

theorem Shows.right {first : List Char} (h : source.Shows p (first ++ cs)) :
    source.Shows (p + width first) cs := by
  rw [← List.append_nil cs] at h
  exact h.within

theorem Shows.tail {ch : Char} (h : source.Shows p (ch :: cs)) :
    source.Shows (p + ch.utf8Size) cs := by
  have hright : source.Shows p ([ch] ++ cs) := h
  exact hright.right

theorem Shows.fits (h : source.Shows p cs) :
    Span.fits ⟨p, width cs⟩ source.size = true ∧ Span.stop ⟨p, width cs⟩ = p + width cs := by
  obtain ⟨before, after, hbytes, rfl, hlt⟩ := h
  have hstop : Span.stop ⟨before.size, width cs⟩ = before.size + width cs := Nat.mod_eq_of_lt hlt
  have hsize : source.size = before.size + (width cs + after.size) := by
    rw [ByteSource.size, hbytes, ByteArray.size_append, ByteArray.size_append, size_utf8Encode]
  refine ⟨?_, hstop⟩
  simp only [Span.fits, hstop, hsize, Bool.and_eq_true, decide_eq_true_eq]
  omega

/-- The bytes of a shown text are cut out by its span. -/
theorem Shows.slice_eq (h : source.Shows p cs) : source.slice ⟨p, width cs⟩ = cs.utf8Encode := by
  have hfits := h.fits
  obtain ⟨before, after, hbytes, rfl, -⟩ := h
  rw [slice, if_pos hfits.1, hfits.2, hbytes]
  have hfirst := ByteArray.extract_append_size_add (a := before) (b := cs.utf8Encode ++ after)
    (i := 0) (j := width cs)
  rw [Nat.add_zero] at hfirst
  rw [hfirst, ← size_utf8Encode, ByteArray.extract_append_eq_left rfl]

/-- What a span cuts out is shown there, if it decodes. -/
theorem shows_of_slice (hfits : span.fits source.size = true)
    (h : source.slice span = cs.utf8Encode) :
    source.Shows span.offset cs ∧ span.offset + width cs = span.stop := by
  rw [slice, if_pos hfits] at h
  simp only [Span.fits, Bool.and_eq_true, decide_eq_true_eq] at hfits
  have hlt : span.stop < Word.modulus := Nat.mod_lt _ (by decide)
  have hwidth : span.offset + width cs = span.stop := by
    have hsize := congrArg ByteArray.size h
    rw [ByteArray.size_extract, size_utf8Encode] at hsize
    have : source.bytes.size = source.size := rfl
    omega
  refine ⟨⟨source.bytes.extract 0 span.offset, source.bytes.extract span.stop source.size,
    ?_, ?_, by omega⟩, hwidth⟩
  · have hall : source.bytes.extract 0 source.size = source.bytes := ByteArray.extract_zero_size
    rw [← h, ← ByteArray.extract_eq_extract_append_extract span.stop hfits.1 hfits.2,
      ← ByteArray.extract_eq_extract_append_extract span.offset (Nat.zero_le _)
        (Nat.le_trans hfits.1 hfits.2), hall]
  · rw [ByteArray.size_extract]
    have : source.bytes.size = source.size := rfl
    omega

end ByteSource

open ByteSource

/-- A span is read by the characters that stand there. -/
theorem readTree_of_shows (h : source.Shows p cs) :
    Scanner.readTree source ⟨p, width cs⟩ = match Node.parse p cs with
      | .error fault => .error (.malformed (fault.locate cs.utf8Encode.data.toList p))
      | .ok node => .ok node := by
  unfold Scanner.readTree
  rw [if_pos h.fits.1, h.slice_eq]
  cases hparse : Node.parse p cs <;> simp [decode_utf8Encode, hparse]

/-- **What a span reads as**: a value that the characters there write, between blanks. -/
theorem shows_of_readTree (h : Scanner.readTree source span = .ok node) :
    ∃ before own after, source.Shows span.offset (before ++ (own ++ after)) ∧ Blanks before ∧
      Writes (span.offset + width before) own node ∧ Blanks after ∧
        span.offset + width (before ++ (own ++ after)) = span.stop ∧
          source.slice span = (before ++ (own ++ after)).utf8Encode := by
  unfold Scanner.readTree at h
  split at h
  · rename_i hfits
    dsimp only at h
    split at h
    · cases h
    rename_i cs hdecode
    split at h
    · cases h
    rename_i node' hparse
    cases h
    obtain ⟨before, own, after, rfl, hbefore, hown, hafter⟩ := Node.parse_eq_ok_iff.mp hparse
    have hslice := decode_eq_ok_iff.mp hdecode
    obtain ⟨hshows, hstop⟩ := shows_of_slice hfits hslice
    exact ⟨before, own, after, hshows, hbefore, hown, hafter, hstop, hslice⟩
  · cases h

/-- A value that is read has a text of its own, at the start of its span. -/
theorem exists_own_of_readTree (h : Scanner.readTree source span = .ok node) :
    ∃ own, source.Shows node.span.offset own ∧ Writes node.span.offset own node := by
  obtain ⟨before, own, after, hshows, -, hwrites, -⟩ := shows_of_readTree h
  have hoffset : node.span.offset = span.offset + width before := by rw [hwrites.span_eq]
  rw [hoffset]
  exact ⟨own, hshows.within, hwrites⟩

/-- A value reads from the span of its own text. -/
theorem readTree_of_writes (h : source.Shows p cs) (hwrites : Writes p cs node) :
    Scanner.readTree source node.span = .ok node := by
  rw [hwrites.span_eq, readTree_of_shows h, Node.parse_of_writes hwrites]

/-- **Every part of a value that reads is read again from its own span**, which lies inside the
span that the value was read from and is not empty. -/
theorem readTree_part (h : Scanner.readTree source span = .ok node) (hm : m.Part node) :
    Scanner.readTree source m.span = .ok m ∧ m.span.isEmpty = false ∧
      span.offset ≤ m.span.offset ∧ m.span.offset + m.span.len ≤ span.offset + span.len := by
  obtain ⟨first, own, last, hshows, -, hwrites, -, hstop, -⟩ := shows_of_readTree h
  obtain ⟨before, text, after, rfl, hm⟩ := hwrites.holds hm
  have hown := (hshows.within).within
  have hspan := hm.span_eq
  refine ⟨readTree_of_writes hown hm, ?_, ?_, ?_⟩
  · obtain ⟨ch, tail, rfl, -⟩ := hm.head
    have := ch.utf8Size_pos
    rw [hspan, Span.isEmpty, width_cons]
    simp only [beq_eq_false_iff_ne, ne_eq]
    omega
  · rw [hspan]
    dsimp only
    omega
  · have hle : span.stop ≤ span.offset + span.len := Nat.mod_le _ _
    simp only [width_append] at hstop
    rw [hspan]
    dsimp only
    omega

end JsonLines
