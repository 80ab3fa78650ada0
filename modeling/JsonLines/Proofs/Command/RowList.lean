/-
JsonLines.Proofs.Command.RowList — what a list of row numbers denotes.

The grammar of such lists is stated by what is written, without any reading: a text writes a number
(`Writes`), a list has parts (`Parts`), and a part means some rows or an error (`Means`). Each of
these is decided by the text alone (`readIndex_eq_ok_iff`, `parts_iff`, `readPart_iff`). So a list
is read as the rows that its parts mean, one after the other, or as the error of the first part
that means one (`parsesExactly`).
-/
import JsonLines.Command.RowList
import JsonLines.Proofs.Dataset.Failures
import JsonLines.Proofs.Json.Numeral
import JsonLines.Proofs.Text.Pieces
import Mathlib.Data.List.TakeWhile

namespace JsonLines.RowList

/-! ## The grammar -/

/-- The text writes the number: digits after an optional plus sign, with blanks around them, and the
number fits in 64 bits. -/
def Writes (text : List Char) (i : Nat) : Prop :=
  ∃ plus digits, Blank.Trims text (plus ++ digits) ∧ (plus = [] ∨ plus = ['+']) ∧
    Numeral.Digits digits ∧ Numeral.ofDigits digits = i ∧ i < Word.modulus

/-- These are the parts of a list: what stands between its commas, less the blanks around it, unless
nothing is left. -/
def Parts (list : List Char) (parts : List (List Char)) : Prop :=
  ∃ pieces trimmed, [','].intercalate pieces = list ∧ pieces ≠ [] ∧
    (∀ piece ∈ pieces, ',' ∉ piece) ∧ List.Forall₂ Blank.Trims pieces trimmed ∧
      parts = trimmed.filter (· ≠ [])

/-- The ends of a range stand before and after the first minus sign. -/
def Ends (part first last : List Char) : Prop := part = first ++ '-' :: last ∧ '-' ∉ first

/-- One of so many rows. -/
def Among (n i : Nat) : Prop := 1 ≤ i ∧ i ≤ n

/-- What a part means in a list of rows of a dataset that has `n` of them. What is wrong with a
range is told in this order: its start is no number, its end is no number, it ends before it starts,
its start is no row, its end is no row. -/
inductive Means (n : Nat) (part : List Char) : Except Error (List Nat) → Prop where
  | row {i : Nat} : '-' ∉ part → Writes part i → Among n i → Means n part (.ok [i])
  | noNumber : '-' ∉ part → (∀ i, ¬ Writes part i) →
    Means n part (.error (.badRowNumber (String.ofList part)))
  | noRow {i : Nat} : '-' ∉ part → Writes part i → ¬ Among n i →
    Means n part (.error (.indexOutOfRange i n))
  | range {first last : List Char} {i j : Nat} : Ends part first last → Writes first i →
    Writes last j → i ≤ j → Among n i → Among n j → Means n part (.ok (List.range' i (j + 1 - i)))
  | noStart {first last : List Char} : Ends part first last → (∀ i, ¬ Writes first i) →
    Means n part (.error (.badRowNumber (String.ofList first)))
  | noEnd {first last : List Char} {i : Nat} : Ends part first last → Writes first i →
    (∀ j, ¬ Writes last j) → Means n part (.error (.badRowNumber (String.ofList last)))
  | reversed {first last : List Char} {i j : Nat} : Ends part first last → Writes first i →
    Writes last j → j < i → Means n part (.error (.badRowRange (String.ofList part)))
  | startOutside {first last : List Char} {i j : Nat} : Ends part first last → Writes first i →
    Writes last j → i ≤ j → ¬ Among n i → Means n part (.error (.indexOutOfRange i n))
  | endOutside {first last : List Char} {i j : Nat} : Ends part first last → Writes first i →
    Writes last j → i ≤ j → Among n i → ¬ Among n j → Means n part (.error (.indexOutOfRange j n))

variable {n i : Nat} {text part first last list : List Char} {parts : List (List Char)}
  {outcome : Except Error (List Nat)} {e : Error} {rows : List Nat} {groups : List (List Nat)}

/-! ## Numbers -/

theorem withoutPlus_of_digits {digits : List Char} (h : ∀ ch ∈ digits, ch.isDigit) :
    withoutPlus digits = digits := by
  unfold withoutPlus
  split
  · rename_i rest
    exact absurd (h '+' List.mem_cons_self) (by decide)
  · rfl

theorem withoutPlus_eq (cs : List Char) : ∃ plus, cs = plus ++ withoutPlus cs ∧
    (plus = [] ∨ plus = ['+']) := by
  unfold withoutPlus
  split
  · exact ⟨['+'], rfl, .inr rfl⟩
  · exact ⟨[], rfl, .inl rfl⟩

theorem writes_iff : Writes text i ↔ Numeral.Digits (withoutPlus (Blank.trim text)) ∧
    Numeral.ofDigits (withoutPlus (Blank.trim text)) = i ∧ i < Word.modulus := by
  constructor
  · rintro ⟨plus, digits, htrim, hplus, hdigits, hi⟩
    have hwithout : withoutPlus (plus ++ digits) = digits := by
      rcases hplus with rfl | rfl
      · exact withoutPlus_of_digits hdigits.2
      · rfl
    rw [← Blank.trims_iff.mp htrim, hwithout]
    exact ⟨hdigits, hi⟩
  · rintro ⟨hdigits, hi⟩
    obtain ⟨plus, heq, hplus⟩ := withoutPlus_eq (Blank.trim text)
    exact ⟨plus, _, Blank.trims_iff.mpr heq.symm, hplus, hdigits, hi⟩

/-- A number is read where one is written, and only there. -/
theorem readIndex_eq_ok_iff : readIndex text = .ok i ↔ Writes text i := by
  rw [writes_iff, readIndex, Numeral.Digits]
  split
  · rename_i hdigits
    simp only [Bool.and_eq_true, Bool.not_eq_true', List.isEmpty_eq_false_iff, List.all_eq_true,
      decide_eq_true_eq] at hdigits
    constructor
    · intro h
      cases h
      exact ⟨hdigits.1, rfl, hdigits.2⟩
    · rintro ⟨-, rfl, -⟩
      rfl
  · rename_i hdigits
    refine ⟨nofun, ?_⟩
    rintro ⟨⟨hne, hall⟩, rfl, hlt⟩
    refine absurd ?_ hdigits
    simp only [Bool.and_eq_true, Bool.not_eq_true', List.isEmpty_eq_false_iff, List.all_eq_true,
      decide_eq_true_eq]
    exact ⟨⟨hne, hall⟩, hlt⟩

theorem readIndex_eq_error (h : ∀ i, ¬ Writes text i) :
    readIndex text = .error (.badRowNumber (String.ofList text)) := by
  cases hread : readIndex text with
  | ok i => exact absurd (readIndex_eq_ok_iff.mp hread) (h i)
  | error e =>
    unfold readIndex at hread
    dsimp only at hread
    split at hread
    · cases hread
    · exact hread.symm

theorem checkIndex_of_among (h : Among n i) : checkIndex n i = .ok () := by
  unfold Among at h
  rw [checkIndex, if_neg]
  simp only [Bool.or_eq_true, decide_eq_true_eq, not_or]
  omega

theorem checkIndex_of_not_among (h : ¬ Among n i) :
    checkIndex n i = .error (.indexOutOfRange i n) := by
  unfold Among at h
  rw [checkIndex, if_pos]
  simp only [Bool.or_eq_true, decide_eq_true_eq]
  omega

/-! ## Parts -/

theorem ends?_of_ends (h : Ends part first last) : ends? part = some (first, last) := by
  obtain ⟨rfl, hfirst⟩ := h
  have hpos : ∀ ch ∈ first, (ch != '-') = true := fun ch hch =>
    bne_iff_ne.mpr fun heq => hfirst (heq ▸ hch)
  have hdrop : (first ++ '-' :: last).dropWhile (· != '-') = '-' :: last := by
    rw [List.dropWhile_append_of_pos hpos]
    rfl
  have htake : (first ++ '-' :: last).takeWhile (· != '-') = first := by
    rw [List.takeWhile_append_of_pos hpos]
    simp
  rw [ends?, hdrop, htake]

theorem ends?_of_not_mem (h : '-' ∉ part) : ends? part = none := by
  have hdrop : part.dropWhile (· != '-') = [] := by
    rw [List.dropWhile_eq_nil_iff]
    exact fun ch hch => bne_iff_ne.mpr fun heq => h (heq ▸ hch)
  rw [ends?, hdrop]

/-- **A part is read as what it means.** -/
theorem readPart_of_means (h : Means n part outcome) : readPart n part = outcome := by
  unfold readPart
  cases h with
  | row hminus hi hamong =>
    simp only [ends?_of_not_mem hminus, readSingle, readIndex_eq_ok_iff.mpr hi,
      checkIndex_of_among hamong]
  | noNumber hminus hno =>
    simp only [ends?_of_not_mem hminus, readSingle, readIndex_eq_error hno]
  | noRow hminus hi hamong =>
    simp only [ends?_of_not_mem hminus, readSingle, readIndex_eq_ok_iff.mpr hi,
      checkIndex_of_not_among hamong]
  | range hends hi hj hle hamong hamong' =>
    simp only [ends?_of_ends hends, readRange, readIndex_eq_ok_iff.mpr hi,
      readIndex_eq_ok_iff.mpr hj, if_neg (Nat.not_lt.mpr hle), checkIndex_of_among hamong,
      checkIndex_of_among hamong', RowList.range]
  | noStart hends hno =>
    simp only [ends?_of_ends hends, readRange, readIndex_eq_error hno]
  | noEnd hends hi hno =>
    simp only [ends?_of_ends hends, readRange, readIndex_eq_ok_iff.mpr hi, readIndex_eq_error hno]
  | reversed hends hi hj hlt =>
    simp only [ends?_of_ends hends, readRange, readIndex_eq_ok_iff.mpr hi,
      readIndex_eq_ok_iff.mpr hj, if_pos hlt]
  | startOutside hends hi hj hle hamong =>
    simp only [ends?_of_ends hends, readRange, readIndex_eq_ok_iff.mpr hi,
      readIndex_eq_ok_iff.mpr hj, if_neg (Nat.not_lt.mpr hle), checkIndex_of_not_among hamong]
  | endOutside hends hi hj hle hamong hamong' =>
    simp only [ends?_of_ends hends, readRange, readIndex_eq_ok_iff.mpr hi,
      readIndex_eq_ok_iff.mpr hj, if_neg (Nat.not_lt.mpr hle), checkIndex_of_among hamong,
      checkIndex_of_not_among hamong']

/-- **Every part means something.** -/
theorem exists_means (n : Nat) (part : List Char) : ∃ outcome, Means n part outcome := by
  by_cases hminus : '-' ∈ part
  · obtain ⟨first, last, hpart, hfirst⟩ := List.eq_append_cons_of_mem hminus
    have hends : Ends part first last := ⟨hpart, hfirst⟩
    by_cases hi : ∃ i, Writes first i
    · obtain ⟨i, hi⟩ := hi
      by_cases hj : ∃ j, Writes last j
      · obtain ⟨j, hj⟩ := hj
        by_cases hlt : j < i
        · exact ⟨_, .reversed hends hi hj hlt⟩
        have hle : i ≤ j := Nat.le_of_not_lt hlt
        by_cases hamong : Among n i
        · by_cases hamong' : Among n j
          · exact ⟨_, .range hends hi hj hle hamong hamong'⟩
          · exact ⟨_, .endOutside hends hi hj hle hamong hamong'⟩
        · exact ⟨_, .startOutside hends hi hj hle hamong⟩
      · exact ⟨_, .noEnd hends hi (not_exists.mp hj)⟩
    · exact ⟨_, .noStart hends (not_exists.mp hi)⟩
  · by_cases hi : ∃ i, Writes part i
    · obtain ⟨i, hi⟩ := hi
      by_cases hamong : Among n i
      · exact ⟨_, .row hminus hi hamong⟩
      · exact ⟨_, .noRow hminus hi hamong⟩
    · exact ⟨_, .noNumber hminus (not_exists.mp hi)⟩

theorem readPart_iff : readPart n part = outcome ↔ Means n part outcome := by
  refine ⟨?_, readPart_of_means⟩
  rintro rfl
  obtain ⟨outcome, h⟩ := exists_means n part
  rwa [readPart_of_means h]

/-- The rows that a part means are rows of the dataset. -/
theorem among_of_means (h : Means n part (.ok rows)) : ∀ i ∈ rows, Among n i := by
  cases h with
  | row _ _ hamong => exact List.forall_mem_singleton.mpr hamong
  | range _ _ _ _ hstart hstop =>
    intro k hk
    rw [List.mem_range'_1] at hk
    unfold Among at hstart hstop ⊢
    omega

theorem parts_iff : Parts list parts ↔ parts = RowList.parts list := by
  have hfilter : ∀ trimmed : List (List Char),
      trimmed.filter (fun part => decide (part ≠ [])) = trimmed.filter (· != []) := by
    intro trimmed
    exact List.filter_congr fun part _ => by simp [bne, Bool.beq_eq_decide_eq]
  have hmap : ∀ pieces trimmed : List (List Char),
      List.Forall₂ Blank.Trims pieces trimmed ↔ trimmed = pieces.map Blank.trim := by
    intro pieces trimmed
    rw [← List.forall₂_eq_eq_eq, List.forall₂_map_right_iff]
    constructor
    · intro h
      exact (List.Forall₂.imp (fun _ _ htrim => Blank.trims_iff.mp htrim) h).flip
    · intro h
      exact List.Forall₂.imp (fun _ _ heq => Blank.trims_iff.mpr heq) h.flip
  unfold Parts RowList.parts
  constructor
  · rintro ⟨pieces, trimmed, hlist, hne, hpieces, htrims, rfl⟩
    rw [Files.splitOn_eq_iff.mpr ⟨hlist, hne, hpieces⟩, ← (hmap _ _).mp htrims, hfilter]
  · rintro rfl
    obtain ⟨hlist, hne, hpieces⟩ := Files.splitOn_eq_iff.mp (rfl : _ = Files.splitOn ',' list)
    exact ⟨_, _, hlist, hne, hpieces, (hmap _ _).mpr rfl, (hfilter _).symm⟩

/-! ## Lists -/

theorem readParts_cons_eq_ok_iff : readParts n (part :: parts) = .ok rows ↔ ∃ group more,
    readPart n part = .ok group ∧ readParts n parts = .ok more ∧ rows = group ++ more := by
  rw [readParts]
  cases readPart n part with
  | error e => simp
  | ok group => cases readParts n parts <;> simp [eq_comm]

/-- **A list is read when all its parts mean rows**, and then it is read as all of these. -/
theorem readParts_eq_ok_iff : readParts n parts = .ok rows ↔ ∃ groups,
    List.Forall₂ (fun part group => Means n part (.ok group)) parts groups ∧
      rows = groups.flatten := by
  induction parts generalizing rows with
  | nil => simp [readParts, eq_comm]
  | cons part parts ih =>
    simp only [readParts_cons_eq_ok_iff, readPart_iff, ih, List.forall₂_cons_left_iff]
    constructor
    · rintro ⟨group, _, hgroup, ⟨groups, hgroups, rfl⟩, rfl⟩
      exact ⟨group :: groups, ⟨group, groups, hgroup, hgroups, rfl⟩, List.flatten_cons.symm⟩
    · rintro ⟨_, ⟨group, groups, hgroup, hgroups, rfl⟩, rfl⟩
      exact ⟨group, groups.flatten, hgroup, ⟨groups, hgroups, rfl⟩, List.flatten_cons⟩

theorem readParts_cons_eq_error_iff : readParts n (part :: parts) = .error e ↔
    readPart n part = .error e ∨
      (∃ group, readPart n part = .ok group) ∧ readParts n parts = .error e := by
  rw [readParts]
  cases readPart n part with
  | error e => simp
  | ok group => cases readParts n parts <;> simp

/-- **The first part that is wrong decides the error.** -/
theorem readParts_eq_error_iff : readParts n parts = .error e ↔ ∃ before bad after,
    parts = before ++ bad :: after ∧ (∀ part ∈ before, ∃ group, Means n part (.ok group)) ∧
      Means n bad (.error e) := by
  induction parts with
  | nil => simp [readParts]
  | cons part parts ih =>
    simp only [readParts_cons_eq_error_iff, readPart_iff, ih]
    constructor
    · rintro (herror | ⟨hpart, before, bad, after, rfl, hbefore, herror⟩)
      · exact ⟨[], part, parts, rfl, List.forall_mem_nil _, herror⟩
      · exact ⟨part :: before, bad, after, rfl, List.forall_mem_cons.mpr ⟨hpart, hbefore⟩, herror⟩
    · rintro ⟨before, bad, after, hparts, hbefore, herror⟩
      cases before with
      | nil =>
        cases hparts
        exact .inl herror
      | cons first before =>
        cases hparts
        obtain ⟨hfirst, hbefore⟩ := List.forall_mem_cons.mp hbefore
        exact .inr ⟨hfirst, before, bad, after, rfl, hbefore, herror⟩

theorem among_of_parse {list : String} (h : parse n list = .ok rows) : ∀ i ∈ rows, Among n i := by
  obtain ⟨groups, hgroups, rfl⟩ := readParts_eq_ok_iff.mp h
  intro i hi
  obtain ⟨group, hgroup, hi⟩ := List.mem_flatten.mp hi
  obtain ⟨part, -, hpart⟩ := exists_of_forall₂ hgroups hgroup
  exact among_of_means hpart i hi

/-! ## Numbers that are written down -/

/-- The decimal text of a number. -/
def decimal (i : Nat) : List Char := Nat.toDigits 10 i

theorem digits_decimal (i : Nat) : Numeral.Digits (decimal i) :=
  ⟨Nat.toDigits_ne_nil, fun _ hch => Nat.isDigit_of_mem_toDigits (by decide) (by decide) hch⟩

theorem ofDigits_decimal (i : Nat) : Numeral.ofDigits (decimal i) = i := by
  have hfold : Numeral.ofDigits (decimal i) = Nat.ofDigitChars 10 (decimal i) 0 := by
    unfold Numeral.ofDigits Nat.ofDigitChars
    congr 1
    funext m ch
    rw [Nat.mul_comm]
    rfl
  rw [hfold]
  exact Nat.ofDigitChars_toDigits (by decide) (by decide)

theorem digit_bounds {ch : Char} (h : ch.isDigit) : 48 ≤ ch.toNat ∧ ch.toNat ≤ 57 := by
  simp only [Char.isDigit, Bool.and_eq_true, decide_eq_true_eq, ge_iff_le, UInt32.le_iff_toNat_le]
    at h
  exact h

theorem not_blank_of_isDigit {ch : Char} (h : ch.isDigit) : Blank.isBlank ch = false := by
  have hbounds := digit_bounds h
  have hspace : ch ≠ ' ' := by
    rintro rfl
    exact absurd h (by decide)
  have hwide : ch.toNat ∉ Blank.wide := fun hmem => by
    have hlarge : ∀ code ∈ Blank.wide, 57 < code := by decide
    have := hlarge _ hmem
    omega
  simp only [Blank.isBlank, Bool.or_eq_false_iff, Bool.and_eq_false_iff, decide_eq_false_iff_not,
    beq_eq_false_iff_ne, List.contains_eq_mem]
  exact ⟨⟨.inr (by omega), hspace⟩, hwide⟩

/-- A written number has nothing around it that is trimmed. -/
theorem trim_decimal (i : Nat) : Blank.trim (decimal i) = decimal i :=
  Blank.trim_eq_self fun _ hch => not_blank_of_isDigit ((digits_decimal i).2 _ hch)

theorem writes_decimal (h : i < Word.modulus) : Writes (decimal i) i :=
  ⟨[], decimal i, Blank.trims_iff.mpr (trim_decimal i).symm, .inl rfl, digits_decimal i,
    ofDigits_decimal i, h⟩

/-- A character that is no digit is not part of a number. -/
theorem not_mem_decimal {ch : Char} (h : ch.isDigit = false) (i : Nat) : ch ∉ decimal i :=
  fun hmem => Bool.false_ne_true (h.symm.trans ((digits_decimal i).2 ch hmem))

theorem means_decimal (hword : i < Word.modulus) (h : Among n i) :
    Means n (decimal i) (.ok [i]) :=
  .row (not_mem_decimal (by decide) i) (writes_decimal hword) h

/-- The parts of a list of written numbers are these numbers. -/
theorem parts_intercalate (rows : List Nat) :
    RowList.parts (",".intercalate (rows.map toString)).toList = rows.map decimal := by
  have hlist : (",".intercalate (rows.map toString)).toList =
      [','].intercalate (rows.map decimal) := by
    rw [String.toList_intercalate, List.map_map]
    exact congrArg _ (List.map_congr_left fun i _ => Nat.toList_repr)
  rw [hlist]
  by_cases hne : rows.map decimal = []
  · rw [hne]
    rfl
  have hpieces : ∀ piece ∈ rows.map decimal, ',' ∉ piece := by
    intro piece hpiece
    obtain ⟨i, -, rfl⟩ := List.mem_map.mp hpiece
    exact not_mem_decimal (by decide) i
  rw [RowList.parts, Files.splitOn_eq_iff.mpr ⟨rfl, hne, hpieces⟩, List.map_map]
  have htrim : rows.map (Blank.trim ∘ decimal) = rows.map decimal :=
    List.map_congr_left fun i _ => trim_decimal i
  rw [htrim, List.filter_eq_self]
  intro piece hpiece
  obtain ⟨i, -, rfl⟩ := List.mem_map.mp hpiece
  exact bne_iff_ne.mpr (digits_decimal i).1

/-- **Numbers that are written down are read again.** -/
theorem parse_intercalate (h : ∀ i ∈ rows, Among n i ∧ i < Word.modulus) :
    parse n (",".intercalate (rows.map toString)) = .ok rows := by
  rw [parse, parts_intercalate, readParts_eq_ok_iff]
  refine ⟨rows.map ([·]), ?_, ?_⟩
  · rw [List.forall₂_map_left_iff, List.forall₂_map_right_iff, List.forall₂_same]
    exact fun i hi => means_decimal (h i hi).2 (h i hi).1
  · rw [← List.flatMap_def, List.flatMap_singleton']

/-! ## Lists of rows -/

/-- How lists of row numbers are read, of datasets that have `n` rows. -/
structure ParsesExactly (n : Nat) : Prop where
  /-- The text of a list decides its parts. -/
  parts : ∀ list : List Char, ∃! parts, Parts list parts
  /-- A part means one thing. -/
  means : ∀ part : List Char, ∃! outcome, Means n part outcome
  /-- A list is read when every part means rows, as these rows in the order of the parts. -/
  ok_iff : ∀ (list : String) rows, parse n list = .ok rows ↔ ∃ parts groups,
    Parts list.toList parts ∧
      List.Forall₂ (fun part group => Means n part (.ok group)) parts groups ∧
        rows = groups.flatten
  /-- Otherwise the error is that of the first part that means none. -/
  error_iff : ∀ (list : String) e, parse n list = .error e ↔ ∃ before bad after,
    Parts list.toList (before ++ bad :: after) ∧
      (∀ part ∈ before, ∃ group, Means n part (.ok group)) ∧ Means n bad (.error e)
  /-- Rows that are read are never refused as rows that are not there. -/
  accepted : ∀ (list : String) rows (v : View), parse n list = .ok rows → v.rowCount = n →
    (∀ i ∈ rows, v.HasRow i) ∧ ∀ index len, v.select rows ≠ .error (.indexOutOfRange index len)
  /-- Numbers joined by commas are read as these numbers. -/
  rereads : ∀ rows, (∀ i ∈ rows, Among n i ∧ i < Word.modulus) →
    parse n (",".intercalate (rows.map toString)) = .ok rows

/-- **A list of row numbers is read as what it denotes.** -/
theorem parsesExactly (n : Nat) : ParsesExactly n where
  parts list := ⟨_, parts_iff.mpr rfl, fun _ h => parts_iff.mp h⟩
  means part := ⟨_, readPart_iff.mp rfl, fun _ h => (readPart_iff.mpr h).symm⟩
  ok_iff list rows := by
    simp only [parts_iff, exists_and_left, exists_eq_left]
    exact readParts_eq_ok_iff
  error_iff list e := by
    simp only [parts_iff, eq_comm (b := RowList.parts list.toList)]
    exact readParts_eq_error_iff
  accepted list rows v h hcount := by
    have hrows : ∀ i ∈ rows, v.HasRow i := by
      intro i hi
      have hi : Among n i := among_of_parse h i hi
      rwa [← hcount] at hi
    exact ⟨hrows, View.select_ne_indexOutOfRange hrows⟩
  rereads rows h := parse_intercalate h

example : parse 7 "1,3, 5-7" = .ok [1, 3, 5, 6, 7] := by decide +kernel

end JsonLines.RowList
