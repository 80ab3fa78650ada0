/-
JsonLines.Proofs.Json.Literal — the grammar of string literals.

`Written raw` says which characters may stand between the quotes of a literal: unescaped ones,
escapes of one character, and four hexadecimal digits after `\u`. Skipping a literal accepts exactly
these, and passes over exactly their bytes (`skim_eq_ok_iff`). Decoding asks for more: `Spells`
says which text the characters stand for, with surrogates in pairs, and decoding gives that text
(`spells_of_read`, `read_of_spells`), wherever the literal stands (`read_of_read`). What is written
for a text spells it again (`spells_escape`), so a written literal tells its text and where it ends
(`quoteChars_append_inj`).
-/
import JsonLines.Json.Literal
import JsonLines.Proofs.Text.Utf8

namespace JsonLines.Json.Literal

open Utf8

/-- The characters between the quotes of a literal, as they are written. -/
inductive Written : List Char → Prop where
  | nil : Written []
  | plain {ch : Char} {raw : List Char} : isControl ch = false → ch ≠ '"' → ch ≠ '\\' →
    Written raw → Written (ch :: raw)
  | escape {ch : Char} {raw : List Char} : (escaped? ch).isSome → Written raw →
    Written ('\\' :: ch :: raw)
  | unicode {a b c d : Char} {raw : List Char} : (hexQuad? a b c d).isSome → Written raw →
    Written ('\\' :: 'u' :: a :: b :: c :: d :: raw)

variable {p : Nat} {cs raw raw' rest rest' text text' : List Char} {d : Cursor} {ch : Char}

/-! ## Widths -/

theorem utf8Size_of_le {n : Char} (h : ch ≤ n) (hn : n.val ≤ 127) : ch.utf8Size = 1 :=
  Char.utf8Size_eq_one_iff.mpr (UInt32.le_trans h hn)

theorem utf8Size_of_hexValue? (h : (hexValue? ch).isSome) : ch.utf8Size = 1 := by
  unfold hexValue? at h
  split at h
  · rename_i h'
    exact utf8Size_of_le h'.2 (by decide)
  split at h
  · rename_i h'
    exact utf8Size_of_le h'.2 (by decide)
  split at h
  · rename_i h'
    exact utf8Size_of_le h'.2 (by decide)
  · cases h

theorem utf8Size_of_escaped? (h : (escaped? ch).isSome) : ch.utf8Size = 1 := by
  unfold escaped? at h
  split at h <;> first | decide | cases h

/-- Four hexadecimal digits take four bytes. -/
theorem utf8Size_of_hexQuad? {a b c d : Char} (h : (hexQuad? a b c d).isSome) :
    a.utf8Size = 1 ∧ b.utf8Size = 1 ∧ c.utf8Size = 1 ∧ d.utf8Size = 1 := by
  unfold hexQuad? at h
  split at h
  · rename_i ha hb hc hd
    exact ⟨utf8Size_of_hexValue? (by simp [ha]), utf8Size_of_hexValue? (by simp [hb]),
      utf8Size_of_hexValue? (by simp [hc]), utf8Size_of_hexValue? (by simp [hd])⟩
  · cases h

theorem width_unicode {a b c d : Char} (h : (hexQuad? a b c d).isSome) :
    width ('\\' :: 'u' :: a :: b :: c :: d :: raw) = 6 + width raw := by
  obtain ⟨ha, hb, hc, hd⟩ := utf8Size_of_hexQuad? h
  have hslash : '\\'.utf8Size = 1 := by decide
  have hu : 'u'.utf8Size = 1 := by decide
  simp only [width_cons, ha, hb, hc, hd, hslash, hu]
  omega

theorem width_escape (h : (escaped? ch).isSome) : width ('\\' :: ch :: raw) = 2 + width raw := by
  have hslash : '\\'.utf8Size = 1 := by decide
  simp only [width_cons, utf8Size_of_escaped? h, hslash]
  omega

/-! ## Skipping a literal -/

/-- What is skipped is written as a literal, up to the quote that closes it. -/
theorem written_of_skim (h : skim p cs = .ok (raw, d)) :
    Written raw ∧ cs = raw ++ '"' :: d.rest ∧ d.position = p + width raw + 1 := by
  fun_induction skim p cs generalizing raw d with
  | case2 p rest =>
    cases h
    exact ⟨.nil, rfl, rfl⟩
  | case6 p a b c d' rest n hquad raw' next hskim ih =>
    cases h
    obtain ⟨hraw, hrest, hpos⟩ := ih hskim
    have hsome : (hexQuad? a b c d').isSome := by simp [hquad]
    refine ⟨.unicode hsome hraw, ?_, ?_⟩
    · rw [hrest]
      rfl
    · rw [hpos, width_unicode hsome]
      omega
  | case10 p ch rest hu value hescaped raw' next hskim ih =>
    cases h
    obtain ⟨hraw, hrest, hpos⟩ := ih hskim
    have hsome : (escaped? ch).isSome := by simp [hescaped]
    refine ⟨.escape hsome hraw, ?_, ?_⟩
    · rw [hrest]
      rfl
    · rw [hpos, width_escape hsome]
      omega
  | case13 p ch rest hquote hslash hcontrol raw' next hskim ih =>
    cases h
    obtain ⟨hraw, hrest, hpos⟩ := ih hskim
    refine ⟨.plain (by simpa using hcontrol) hquote hslash hraw, ?_, ?_⟩
    · rw [hrest]
      rfl
    · rw [hpos, width_cons]
      omega
  | _ => cases h

/-- What is written as a literal is skipped as a whole. -/
theorem skim_of_written (h : Written raw) :
    skim p (raw ++ '"' :: rest) = .ok (raw, ⟨p + width raw + 1, rest⟩) := by
  induction h generalizing p with
  | nil => rfl
  | plain hcontrol hquote hslash _ ih =>
    rw [List.cons_append, skim, if_neg (by simpa using hcontrol)]
    · simp only [ih, width_cons, Nat.add_assoc]
    · exact hquote
    · exact hslash
  | @escape ch raw hescaped _ ih =>
    have hu : ch ≠ 'u' := by
      rintro rfl
      cases hescaped
    obtain ⟨value, hvalue⟩ := Option.isSome_iff_exists.mp hescaped
    rw [List.cons_append, List.cons_append, skim, hvalue, width_escape hescaped, ← Nat.add_assoc]
    · simp only [ih]
    · exact hu
  | @unicode a b c d raw hquad _ ih =>
    obtain ⟨value, hvalue⟩ := Option.isSome_iff_exists.mp hquad
    simp only [List.cons_append, skim, hvalue, ih, width_unicode hquad, Nat.add_assoc]

/-- **The language of skipped literals.** -/
theorem skim_eq_ok_iff : skim p cs = .ok (raw, d) ↔
    Written raw ∧ cs = raw ++ '"' :: d.rest ∧ d.position = p + width raw + 1 := by
  constructor
  · exact written_of_skim
  · rintro ⟨hraw, rfl, hpos⟩
    rw [skim_of_written hraw, ← hpos]

/-! ## Decoding a literal -/

/-- The characters between the quotes of a literal spell a text: an escape stands for its character,
and surrogates stand for one in pairs. -/
inductive Spells : List Char → List Char → Prop where
  | nil : Spells [] []
  | plain {ch : Char} {raw text : List Char} : isControl ch = false → ch ≠ '"' → ch ≠ '\\' →
    Spells raw text → Spells (ch :: raw) (ch :: text)
  | escape {ch decoded : Char} {raw text : List Char} : escaped? ch = some decoded →
    Spells raw text → Spells ('\\' :: ch :: raw) (decoded :: text)
  | unicode {a b c d : Char} {n : Nat} {raw text : List Char} : hexQuad? a b c d = some n →
    isLowSurrogate n = false → isHighSurrogate n = false → Spells raw text →
    Spells ('\\' :: 'u' :: a :: b :: c :: d :: raw) (Char.ofNat n :: text)
  | pair {a b c d a' b' c' d' : Char} {high low : Nat} {raw text : List Char} :
    hexQuad? a b c d = some high → isHighSurrogate high = true →
    hexQuad? a' b' c' d' = some low → isLowSurrogate low = true → Spells raw text →
    Spells ('\\' :: 'u' :: a :: b :: c :: d :: '\\' :: 'u' :: a' :: b' :: c' :: d' :: raw)
      (pairChar high low :: text)

theorem Spells.written (h : Spells raw text) : Written raw := by
  induction h with
  | nil => exact .nil
  | plain hcontrol hquote hslash _ ih => exact .plain hcontrol hquote hslash ih
  | escape hescaped _ ih => exact .escape (by simp [hescaped]) ih
  | unicode hquad _ _ _ ih => exact .unicode (by simp [hquad]) ih
  | pair hhigh _ hlow _ _ ih => exact .unicode (by simp [hhigh]) (.unicode (by simp [hlow]) ih)

/-- A text is no longer than what spells it. -/
theorem Spells.length_le (h : Spells raw text) : text.length ≤ raw.length := by
  induction h <;> simp only [List.length_cons, List.length_nil] <;> omega

theorem utf8Size_of_escaped?_eq {decoded : Char} (h : escaped? ch = some decoded) :
    decoded.utf8Size = 1 := by
  unfold escaped? at h
  split at h <;> first | (cases h; decide) | cases h

/-- A text takes no more bytes than what spells it. -/
theorem Spells.width_le (h : Spells raw text) : width text ≤ width raw := by
  induction h with
  | nil => exact Nat.le_refl _
  | plain _ _ _ _ ih =>
    rw [width_cons, width_cons]
    omega
  | escape hescaped _ ih =>
    rw [width_escape (by simp [hescaped]), width_cons, utf8Size_of_escaped?_eq hescaped]
    omega
  | @unicode a b c d n raw text hquad _ _ _ ih =>
    have hsize := (Char.ofNat n).utf8Size_le_four
    rw [width_unicode (by simp [hquad]), width_cons]
    omega
  | @pair a b c d a' b' c' d' high low raw text hhigh _ hlow _ _ ih =>
    have hsize := (pairChar high low).utf8Size_le_four
    rw [width_unicode (by simp [hhigh]), width_unicode (by simp [hlow]), width_cons]
    omega

/-- The quote that closes a literal is the first that is not escaped. -/
theorem Written.append_inj (h : Written raw) (h' : Written raw')
    (heq : raw ++ '"' :: rest = raw' ++ '"' :: rest') : raw = raw' := by
  have hskim : skim 0 (raw ++ '"' :: rest) = .ok (raw, ⟨0 + width raw + 1, rest⟩) :=
    skim_of_written h
  rw [heq, skim_of_written h'] at hskim
  exact (Prod.mk.inj (Except.ok.inj hskim)).1.symm

theorem not_isLowSurrogate_of_isHighSurrogate {n : Nat} (h : isHighSurrogate n = true) :
    isLowSurrogate n = false := by
  simp only [isHighSurrogate, Bool.and_eq_true, decide_eq_true_eq] at h
  simp only [isLowSurrogate, Bool.and_eq_false_iff, decide_eq_false_iff_not]
  omega

/-- What is read is spelled by the characters up to the quote that closes the literal. -/
theorem spells_of_read (h : read p cs = .ok (text, d)) :
    ∃ raw, Spells raw text ∧ cs = raw ++ '"' :: d.rest := by
  fun_induction read p cs generalizing text d with
  | case2 p rest =>
    cases h
    exact ⟨[], .nil, rfl⟩
  | case8 p a b c d' high hhigh hnotLow hisHigh a' b' c' d'' rest low hlow hisLow text' next hread
      ih =>
    cases h
    obtain ⟨raw, hraw, rfl⟩ := ih hread
    exact ⟨_, .pair hhigh hisHigh hlow hisLow hraw, rfl⟩
  | case12 p a b c d' rest n hquad hnotLow hnotHigh text' next hread ih =>
    cases h
    obtain ⟨raw, hraw, rfl⟩ := ih hread
    exact ⟨_, .unicode hquad (by simpa using hnotLow) (by simpa using hnotHigh) hraw, rfl⟩
  | case16 p ch rest hu decoded hescaped text' next hread ih =>
    cases h
    obtain ⟨raw, hraw, rfl⟩ := ih hread
    exact ⟨_, .escape hescaped hraw, rfl⟩
  | case19 p ch rest hquote hslash hcontrol text' next hread ih =>
    cases h
    obtain ⟨raw, hraw, rfl⟩ := ih hread
    exact ⟨_, .plain (by simpa using hcontrol) hquote hslash hraw, rfl⟩
  | _ => cases h

/-- What spells a text is read as that text. -/
theorem read_of_spells (h : Spells raw text) (p : Nat) (rest : List Char) :
    ∃ d, read p (raw ++ '"' :: rest) = .ok (text, d) := by
  induction h generalizing p with
  | nil => exact ⟨_, rfl⟩
  | @plain ch raw text hcontrol hquote hslash _ ih =>
    obtain ⟨d, hd⟩ := ih (p + ch.utf8Size)
    rw [List.cons_append, read, if_neg (by simpa using hcontrol)]
    · exact ⟨d, by simp only [hd]⟩
    · exact hquote
    · exact hslash
  | @escape ch decoded raw text hescaped _ ih =>
    have hu : ch ≠ 'u' := by
      rintro rfl
      cases hescaped
    obtain ⟨d, hd⟩ := ih (p + 2)
    rw [List.cons_append, List.cons_append, read, hescaped]
    · exact ⟨d, by simp only [hd]⟩
    · exact hu
  | unicode hquad hnotLow hnotHigh _ ih =>
    obtain ⟨d, hd⟩ := ih (p + 6)
    exact ⟨d, by simp [read, hquad, hnotLow, hnotHigh, hd]⟩
  | pair hhigh hisHigh hlow hisLow _ ih =>
    obtain ⟨d, hd⟩ := ih (p + 12)
    have hnotLow := not_isLowSurrogate_of_isHighSurrogate hisHigh
    exact ⟨d, by simp [read, hhigh, hnotLow, hisHigh, hlow, hisLow, hd]⟩

/-- What a literal decodes to does not depend on where it stands. -/
theorem read_of_read (h : read p cs = .ok (text, d)) (q : Nat) :
    ∃ e, read q cs = .ok (text, e) := by
  obtain ⟨raw, hraw, rfl⟩ := spells_of_read h
  exact read_of_spells hraw q d.rest

/-! ## Writing a literal -/

/-- The digits that a control character is written by are those of its number. -/
theorem hexQuad?_of_isControl (h : isControl ch = true) :
    hexQuad? '0' '0' (hexDigit (ch.toNat / 16)) (hexDigit (ch.toNat % 16)) = some ch.toNat := by
  have hdigits : ∀ n < 32, hexQuad? '0' '0' (hexDigit (n / 16)) (hexDigit (n % 16)) = some n := by
    decide
  exact hdigits ch.toNat (by simpa [isControl] using h)

/-- What is written for a character stands for it. -/
theorem Spells.cons_escape (ch : Char) (h : Spells raw text) :
    Spells (Literal.escape ch ++ raw) (ch :: text) := by
  unfold Literal.escape
  split
  iterate 7 exact .escape rfl h
  rename_i hquote hslash _ _ _ _ _
  split
  · rename_i hcontrol
    have hquad := hexQuad?_of_isControl hcontrol
    have hlt : ch.toNat < 32 := by simpa [isControl] using hcontrol
    have hspells := Spells.unicode hquad
      (by simp only [isLowSurrogate, Bool.and_eq_false_iff, decide_eq_false_iff_not]; omega)
      (by simp only [isHighSurrogate, Bool.and_eq_false_iff, decide_eq_false_iff_not]; omega) h
    rwa [Char.ofNat_toNat] at hspells
  · rename_i hcontrol
    exact .plain (by simpa using hcontrol) hquote hslash h

/-- **What is written for a text spells it.** -/
theorem spells_escape (text : List Char) : Spells (text.flatMap Literal.escape) text := by
  induction text with
  | nil => exact .nil
  | cons ch text ih => exact ih.cons_escape ch

/-- The same characters spell one text only. -/
theorem Spells.text_eq (h : Spells raw text) (h' : Spells raw text') :
    text = text' := by
  obtain ⟨d, hd⟩ := read_of_spells h 0 []
  obtain ⟨d', hd'⟩ := read_of_spells h' 0 []
  rw [hd] at hd'
  exact (Prod.mk.inj (Except.ok.inj hd')).1

/-- **A literal tells its text and where it ends.** -/
theorem quoteChars_append_inj
    (h : quoteChars text ++ rest = quoteChars text' ++ rest') : text = text' ∧ rest = rest' := by
  simp only [quoteChars, List.cons_append, List.append_assoc, List.cons.injEq, true_and,
    List.nil_append] at h
  have hraw := (spells_escape text).written.append_inj (spells_escape text').written h
  rw [hraw, List.append_cancel_left_eq, List.cons.injEq] at h
  exact ⟨(hraw ▸ spells_escape text).text_eq (spells_escape text'), h.2⟩

end JsonLines.Json.Literal
