/-
JsonLines.Proofs.Text.Pieces — texts less the blanks around them, and texts between separators.

What trimming and splitting give is told by what is written: the blanks that trimming takes away
(`Blank.trims_iff`), and the pieces that make up a text with separators between them
(`Files.splitOn_eq_iff`).
-/
import JsonLines.Source.Files
import JsonLines.Text.Blank
import Mathlib.Data.List.Basic

namespace JsonLines

/-! ## Texts without blanks around them -/

namespace Blank

/-- The second text is the first one less all the blanks at its start and its end. -/
def Trims (text part : List Char) : Prop :=
  ∃ before after, text = before ++ (part ++ after) ∧
    (∀ ch ∈ before, isBlank ch) ∧ (∀ ch ∈ after, isBlank ch) ∧
      (∀ ch ∈ part.head?, isBlank ch = false) ∧ ∀ ch ∈ part.getLast?, isBlank ch = false

variable {text part before rest : List Char}

theorem dropWhile_append (hbefore : ∀ ch ∈ before, isBlank ch)
    (hrest : ∀ ch ∈ rest.head?, isBlank ch = false) :
    (before ++ rest).dropWhile isBlank = rest := by
  rw [List.dropWhile_append_of_pos hbefore]
  cases rest with
  | nil => rfl
  | cons ch rest => rw [List.dropWhile_cons_of_neg (by simp [hrest ch rfl])]

theorem head?_dropWhile (text : List Char) :
    ∀ ch ∈ (text.dropWhile isBlank).head?, isBlank ch = false := by
  intro ch hch
  have hhead := List.head?_dropWhile_not isBlank text
  rwa [Option.mem_def.mp hch] at hhead

theorem trims_trim (text : List Char) : Trims text (trim text) := by
  have hsplit := List.takeWhile_append_dropWhile (p := isBlank) (l := text)
  have hfront := head?_dropWhile text
  generalize hmiddle : text.dropWhile isBlank = middle at hsplit hfront
  have hend := List.takeWhile_append_dropWhile (p := isBlank) (l := middle.reverse)
  have hback := head?_dropWhile middle.reverse
  have htrim : trim text = (middle.reverse.dropWhile isBlank).reverse := by rw [trim, hmiddle]
  generalize middle.reverse.dropWhile isBlank = kept at hend hback htrim
  have hmiddle' : middle = kept.reverse ++ (middle.reverse.takeWhile isBlank).reverse := by
    rw [← List.reverse_append, hend, List.reverse_reverse]
  refine ⟨text.takeWhile isBlank, (middle.reverse.takeWhile isBlank).reverse, ?_,
    fun ch hch => List.all_eq_true.mp List.all_takeWhile ch hch, fun ch hch => ?_,
    fun ch hch => ?_, fun ch hch => ?_⟩
  · rw [htrim, ← hmiddle', hsplit]
  · exact List.all_eq_true.mp List.all_takeWhile ch (List.mem_reverse.mp hch)
  · refine hfront ch ?_
    rw [htrim] at hch
    rw [hmiddle', List.head?_append, Option.mem_def.mp hch]
    rfl
  · rw [htrim, List.getLast?_reverse] at hch
    exact hback ch hch

/-- **Trimming is all there is to it.** -/
theorem trims_iff : Trims text part ↔ part = trim text := by
  constructor
  · rintro ⟨before, after, rfl, hbefore, hafter, hfront, hback⟩
    cases part with
    | nil =>
      have hall : ∀ ch ∈ before ++ after, isBlank ch := by
        intro ch hch
        exact (List.mem_append.mp hch).elim (hbefore ch) (hafter ch)
      have hnil : (before ++ after ++ []).dropWhile isBlank = [] :=
        dropWhile_append hall (by simp)
      rw [List.append_nil] at hnil
      rw [trim, List.nil_append, hnil]
      rfl
    | cons first part =>
      have hreverse : (first :: part ++ after).reverse.dropWhile isBlank =
          (first :: part).reverse := by
        rw [List.reverse_append]
        refine dropWhile_append (fun ch hch => hafter ch (List.mem_reverse.mp hch)) ?_
        rwa [List.head?_reverse]
      have hdrop : (before ++ (first :: part ++ after)).dropWhile isBlank =
          first :: part ++ after := dropWhile_append hbefore hfront
      rw [trim, hdrop, hreverse, List.reverse_reverse]
  · rintro rfl
    exact trims_trim text

theorem trim_eq_self (h : ∀ ch ∈ text, isBlank ch = false) : trim text = text := by
  refine (trims_iff.mp ⟨[], [], ?_, by simp, by simp, fun ch hch => h ch ?_,
    fun ch hch => h ch ?_⟩).symm
  · rw [List.nil_append, List.append_nil]
  · exact List.mem_of_mem_head? hch
  · exact List.mem_of_mem_getLast? hch

end Blank

/-! ## Texts between separators -/

namespace Files

variable {separator : Char} {piece : List Char}

theorem splitOn_eq (separator : Char) (cs : List Char) :
    splitOn separator cs = cs.splitOn separator := by
  induction cs with
  | nil => rw [splitOn, List.splitOn_nil]
  | cons c cs ih =>
    obtain ⟨first, pieces, hpieces⟩ :=
      List.exists_cons_of_ne_nil (List.splitOn_ne_nil separator cs)
    rw [splitOn, ih, List.splitOn_cons_eq_if_modifyHead, hpieces]
    simp only [beq_iff_eq, List.modifyHead_cons]

theorem not_mem_of_mem_splitOn (cs : List Char) (h : piece ∈ splitOn separator cs) :
    separator ∉ piece := by
  induction cs generalizing piece with
  | nil =>
    rw [List.mem_singleton.mp h]
    exact List.not_mem_nil
  | cons c cs ih =>
    obtain ⟨first, pieces, hpieces⟩ :=
      List.exists_cons_of_ne_nil (splitOn_eq separator cs ▸ List.splitOn_ne_nil separator cs)
    rw [splitOn, hpieces] at h
    rw [hpieces] at ih
    dsimp only at h
    by_cases hc : c = separator
    · rw [if_pos hc] at h
      rcases List.mem_cons.mp h with rfl | h
      · exact List.not_mem_nil
      · exact ih h
    · rw [if_neg hc] at h
      rcases List.mem_cons.mp h with rfl | h
      · rw [List.mem_cons, not_or]
        exact ⟨Ne.symm hc, ih List.mem_cons_self⟩
      · exact ih (List.mem_cons_of_mem _ h)

/-- Pieces are those of a text if they make it up and do not hold the separator. -/
theorem splitOn_eq_iff {cs : List Char} {pieces : List (List Char)} :
    splitOn separator cs = pieces ↔
      [separator].intercalate pieces = cs ∧ pieces ≠ [] ∧ ∀ piece ∈ pieces, separator ∉ piece := by
  constructor
  · rintro rfl
    refine ⟨?_, ?_, fun piece => not_mem_of_mem_splitOn cs⟩
    · rw [splitOn_eq, List.intercalate_splitOn]
    · rw [splitOn_eq]
      exact List.splitOn_ne_nil separator cs
  · rintro ⟨rfl, hne, hpieces⟩
    rw [splitOn_eq, List.splitOn_intercalate separator hpieces hne]

end Files

end JsonLines
