/-
JsonLines.Proofs.Scan.Bounds — spans near the end of the 64-bit words.

The end of a span is a word, and past the last word it wraps. A length that is a word is less than a
whole turn, so a wrapped end always lies before the start of its span (`stop_lt_offset_iff`), and a
span that ends before it starts fits nowhere. The check of the wrapped end therefore decides the
same as a check of the sum itself (`fits_iff_le`): what a span cuts out are exactly the bytes of its
range, or none, and a scan is refused for its bounds exactly when the range leaves the source. No
other refusal of a scan is about bounds, since what is wrong with a value never is
(`outOfBounds_not_mem_violations`).
-/
import JsonLines.Proofs.Scan.Acceptance

namespace JsonLines

open Json

variable {source : ByteSource} {scanner : Scanner} {s : Schema} {span other : Span}
  {limit depth size : Nat} {node : Node} {items : List Node} {members : List (Key × Node)}
  {before : List String}

/-! ## Ends that wrap -/

namespace Span

theorem stop_of_lt (h : span.offset + span.len < Word.modulus) :
    span.stop = span.offset + span.len := Nat.mod_eq_of_lt h

/-- **A wrapped end lies before the start**, for any two words. -/
theorem stop_lt_offset_iff (hoffset : span.offset < Word.modulus) (hlen : span.len < Word.modulus) :
    span.stop < span.offset ↔ Word.modulus ≤ span.offset + span.len := by
  by_cases hsum : span.offset + span.len < Word.modulus
  · rw [stop_of_lt hsum]
    omega
  · have hstop : span.stop = span.offset + span.len - Word.modulus := by
      rw [stop, Nat.mod_eq_sub_mod (by omega), Nat.mod_eq_of_lt (by omega)]
    omega

/-- The check of the end decides what a check of the sum does. -/
theorem fits_iff_le (hsize : size < Word.modulus) (hlen : span.len < Word.modulus) :
    span.fits size ↔ span.offset + span.len ≤ size := by
  have hstop : span.stop < Word.modulus := Nat.mod_lt _ (by decide)
  simp only [fits, Bool.and_eq_true, decide_eq_true_eq]
  by_cases hoffset : span.offset < Word.modulus
  · have hwraps := stop_lt_offset_iff hoffset hlen
    by_cases hsum : span.offset + span.len < Word.modulus
    · rw [stop_of_lt hsum]
      omega
    · omega
  · omega

end Span

namespace ByteSource

/-- A span inside a source cuts out the bytes of its range. -/
theorem toList_slice (hle : span.offset + span.len ≤ source.size)
    (hsize : source.size < Word.modulus) :
    (source.slice span).data.toList = (source.toList.drop span.offset).take span.len := by
  have hstop : span.stop = span.offset + span.len := Span.stop_of_lt (by omega)
  have hfits : span.fits source.size :=
    (Span.fits_iff_le hsize (by omega)).mpr hle
  rw [slice, if_pos hfits, hstop, ByteArray.data_extract, Array.toList_extract,
    List.extract_eq_take_drop, Nat.add_sub_cancel_left]
  rfl

theorem slice_of_not_fits (h : ¬ span.fits source.size) : source.slice span = .empty := by
  rw [slice, if_neg h]

end ByteSource

/-! ## Refusals for bounds -/

theorem outOfBounds_not_mem_tooDeep : .outOfBounds other ∉ tooDeep limit depth := by
  rw [tooDeep]
  split <;> simp

theorem outOfBounds_not_mem_badNames :
    .outOfBounds other ∉ badNames source span members := by
  simp [badNames]

theorem outOfBounds_not_mem_repeated {key : Key} : .outOfBounds other ∉ repeated before key := by
  simp [repeated]

theorem outOfBounds_not_mem_violationsOfItems
    (ih : ∀ item ∈ items, .outOfBounds other ∉ item.violations source limit depth) :
    .outOfBounds other ∉ violationsOfItems source limit depth items := by
  induction items with
  | nil => simp [violationsOfItems]
  | cons item items ih' =>
    obtain ⟨hitem, hitems⟩ := List.forall_mem_cons.mp ih
    rw [violationsOfItems, List.mem_append, not_or]
    exact ⟨hitem, ih' hitems⟩

theorem outOfBounds_not_mem_violationsOfMembers
    (ih : ∀ m ∈ members, .outOfBounds other ∉ m.2.violations source limit depth) :
    .outOfBounds other ∉ violationsOfMembers source limit depth before members := by
  induction members generalizing before with
  | nil => simp [violationsOfMembers]
  | cons member members ih' =>
    obtain ⟨hmember, hmembers⟩ := List.forall_mem_cons.mp ih
    rw [violationsOfMembers, List.mem_append, List.mem_append, not_or, not_or]
    exact ⟨outOfBounds_not_mem_repeated, hmember, ih' hmembers⟩

/-- **Nothing that is wrong with a value is about bounds.** -/
theorem outOfBounds_not_mem_violations :
    .outOfBounds other ∉ node.violations source limit depth := by
  induction node generalizing depth with
  | array span items ih =>
    rw [Node.violations, List.mem_append, not_or]
    exact ⟨outOfBounds_not_mem_tooDeep,
      outOfBounds_not_mem_violationsOfItems fun item hitem => ih item hitem⟩
  | object span members ih =>
    rw [Node.violations, List.mem_append, List.mem_append, not_or, not_or]
    exact ⟨outOfBounds_not_mem_tooDeep, outOfBounds_not_mem_badNames,
      outOfBounds_not_mem_violationsOfMembers fun m hm => ih m hm⟩
  | _ => simp [Node.violations]

theorem readTree_eq_outOfBounds_iff : Scanner.readTree source span = .error (.outOfBounds other) ↔
    other = span ∧ ¬ span.fits source.size := by
  unfold Scanner.readTree
  by_cases hfits : span.fits source.size
  · rw [if_pos hfits]
    dsimp only
    split
    · simp [hfits]
    split <;> simp [hfits]
  · simp [hfits, eq_comm]

/-- **A scan is refused for bounds exactly when its span does not fit**, and names that span. -/
theorem scan_eq_outOfBounds_iff :
    (scanner.scan source s span).1 = .error (.outOfBounds other) ↔
      other = span ∧ ¬ span.fits source.size := by
  rw [← readTree_eq_outOfBounds_iff, Scanner.scan]
  cases hread : Scanner.readTree source span with
  | error e => simp
  | ok node =>
    refine iff_of_false (fun herror => ?_) (by simp)
    have hrefusal := (refuses_scanNode source scanner 0 s node).refusal_eq
    dsimp only at herror
    rw [herror, refusal?] at hrefusal
    exact outOfBounds_not_mem_violations (List.mem_of_mem_head? hrefusal.symm)

theorem scan_of_not_fits (h : ¬ span.fits source.size) :
    scanner.scan source s span = (.error (.outOfBounds span), s) := by
  rw [Scanner.scan, readTree_eq_outOfBounds_iff.mpr ⟨rfl, h⟩]

/-! ## What a span reaches -/

/-- What a source gives for a span, told by the sum of the two words and not by its wrapped end. -/
structure ByteSource.Reaches (source : ByteSource) (span : Span) : Prop where
  /-- The span is taken for a range of the source exactly when it is one. -/
  fits_iff : span.fits source.size ↔ span.offset + span.len ≤ source.size
  /-- Inside the source the span has the bytes of its range. -/
  inside : span.offset + span.len ≤ source.size →
    (source.slice span).data.toList = (source.toList.drop span.offset).take span.len ∧
      (source.slice span).size = span.len
  /-- Otherwise it has none. -/
  outside : source.size < span.offset + span.len → source.slice span = .empty
  /-- In exactly that case a scan is refused for bounds, with the schema as it was. -/
  refused_iff : ∀ (scanner : Scanner) (s : Schema),
    scanner.scan source s span = (.error (.outOfBounds span), s) ↔
      source.size < span.offset + span.len
  /-- A scan is never refused for the bounds of another span, nor with another schema. -/
  refused_only : ∀ (scanner : Scanner) (s t : Schema) (other : Span),
    scanner.scan source s span = (.error (.outOfBounds other), t) → other = span ∧ t = s

/-- **A span reaches the bytes of its range or none**, of any source whose bytes a word counts and
for any length that is a word; the offset may be any number. -/
theorem ByteSource.reaches_exactly (hsize : source.size < Word.modulus)
    (hlen : span.len < Word.modulus) : source.Reaches span where
  fits_iff := Span.fits_iff_le hsize hlen
  inside hle := by
    have hbytes := toList_slice hle hsize
    refine ⟨hbytes, ?_⟩
    have hlength : source.toList.length = source.size := Array.length_toList
    have hsliced : (source.slice span).size = (source.slice span).data.toList.length :=
      Array.length_toList.symm
    rw [hsliced, hbytes, List.length_take, List.length_drop, hlength]
    omega
  outside hlt := slice_of_not_fits (mt (Span.fits_iff_le hsize hlen).mp (by omega))
  refused_iff scanner s := by
    have hiff := Span.fits_iff_le hsize hlen
    constructor
    · intro h
      have hnot := (scan_eq_outOfBounds_iff.mp (congrArg Prod.fst h)).2
      have := mt hiff.mpr hnot
      omega
    · intro h
      exact scan_of_not_fits (mt hiff.mp (by omega))
  refused_only scanner s t other h := by
    obtain ⟨hother, hfits⟩ := scan_eq_outOfBounds_iff.mp (congrArg Prod.fst h)
    rw [scan_of_not_fits hfits] at h
    exact ⟨hother, (congrArg Prod.snd h).symm⟩

/-- An array of five bytes. -/
def shortArray : ByteSource := .ofString "[1,2]"

/-- The last word as an offset: three bytes further the end wraps into the source. -/
theorem ByteSource.reaches_exactly_wrappedEnd : shortArray.size < Word.modulus ∧
    Span.stop ⟨Word.modulus - 1, 3⟩ = 2 ∧ shortArray.Reaches ⟨Word.modulus - 1, 3⟩ := by
  have hsize : shortArray.size < Word.modulus := by decide +kernel
  exact ⟨hsize, by decide, reaches_exactly hsize (by decide)⟩

end JsonLines
