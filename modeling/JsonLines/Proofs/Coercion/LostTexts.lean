/-
JsonLines.Proofs.Coercion.LostTexts — which strings conversion loses.

Loading takes every literal whose escapes are complete; conversion also asks that surrogates come in
pairs. `Literal.Unpaired` says by the grammar alone that one of them does not, and such a literal is
the only one that spells no text (`Literal.Written.exists_spells_iff`). So a string is reported as
invalid for a surrogate without its other half and for nothing else (`TextOutcome`), and a view of
strings has gaps at these rows besides those without a string.
-/
import JsonLines.Proofs.Coercion.Widening
import JsonLines.Proofs.Command.Showing

namespace JsonLines

open Json

/-! ## Surrogates without their other half -/

namespace Json.Literal

variable {raw text : List Char}

/-- The escape of a low surrogate comes next. -/
def LowNext (raw : List Char) : Prop := ∃ a b c d n rest,
  raw = '\\' :: 'u' :: a :: b :: c :: d :: rest ∧ hexQuad? a b c d = some n ∧
    isLowSurrogate n = true

/-- A surrogate between the quotes has no other half: a low one that no high one stands before, or
a high one that no low one follows. -/
inductive Unpaired : List Char → Prop where
  | plain {ch : Char} {raw : List Char} : ch ≠ '\\' → Unpaired raw → Unpaired (ch :: raw)
  | escape {ch : Char} {raw : List Char} : (escaped? ch).isSome → Unpaired raw →
    Unpaired ('\\' :: ch :: raw)
  | unicode {a b c d : Char} {n : Nat} {raw : List Char} : hexQuad? a b c d = some n →
    isHighSurrogate n = false → Unpaired raw → Unpaired ('\\' :: 'u' :: a :: b :: c :: d :: raw)
  | pair {a b c d a' b' c' d' : Char} {high low : Nat} {raw : List Char} :
    hexQuad? a b c d = some high → isHighSurrogate high = true →
    hexQuad? a' b' c' d' = some low → isLowSurrogate low = true → Unpaired raw →
    Unpaired ('\\' :: 'u' :: a :: b :: c :: d :: '\\' :: 'u' :: a' :: b' :: c' :: d' :: raw)
  | low {a b c d : Char} {n : Nat} {raw : List Char} : hexQuad? a b c d = some n →
    isLowSurrogate n = true → Unpaired ('\\' :: 'u' :: a :: b :: c :: d :: raw)
  | high {a b c d : Char} {n : Nat} {raw : List Char} : hexQuad? a b c d = some n →
    isHighSurrogate n = true → ¬ LowNext raw → Unpaired ('\\' :: 'u' :: a :: b :: c :: d :: raw)

/-- What spells a text has all surrogates in pairs. -/
theorem Spells.not_unpaired (h : Spells raw text) : ¬ Unpaired raw := by
  induction h with
  | nil => exact nofun
  | plain _ _ hslash _ ih =>
    intro hunpaired
    cases hunpaired with
    | plain _ hraw => exact ih hraw
    | _ => exact hslash rfl
  | escape hescaped _ ih =>
    intro hunpaired
    cases hunpaired with
    | plain hslash => exact hslash rfl
    | escape _ hraw => exact ih hraw
    | _ => cases hescaped
  | unicode hquad hnotLow hnotHigh _ ih =>
    intro hunpaired
    cases hunpaired with
    | plain hslash => exact hslash rfl
    | escape hescaped => cases hescaped
    | unicode _ _ hraw => exact ih hraw
    | pair hhigh hisHigh =>
      cases hquad.symm.trans hhigh
      cases hnotHigh.symm.trans hisHigh
    | low hlow hisLow =>
      cases hquad.symm.trans hlow
      cases hnotLow.symm.trans hisLow
    | high hhigh hisHigh =>
      cases hquad.symm.trans hhigh
      cases hnotHigh.symm.trans hisHigh
  | pair hquad hisHigh hquad' hisLow _ ih =>
    intro hunpaired
    cases hunpaired with
    | plain hslash => exact hslash rfl
    | escape hescaped => cases hescaped
    | unicode hhigh hnotHigh =>
      cases hquad.symm.trans hhigh
      cases hnotHigh.symm.trans hisHigh
    | pair _ _ _ _ hraw => exact ih hraw
    | low hlow hlow' =>
      cases hquad.symm.trans hlow
      cases (not_isLowSurrogate_of_isHighSurrogate hisHigh).symm.trans hlow'
    | high _ _ hnext => exact hnext ⟨_, _, _, _, _, _, rfl, hquad', hisLow⟩

/-- What follows an escape of four digits is written as a literal is. -/
theorem Written.of_unicode {a b c d : Char}
    (h : Written ('\\' :: 'u' :: a :: b :: c :: d :: raw)) : Written raw := by
  cases h with
  | plain _ _ hslash => exact absurd rfl hslash
  | escape hescaped => cases hescaped
  | unicode _ hraw => exact hraw

/-- What has all surrogates in pairs spells a text. -/
theorem Written.exists_spells (h : Written raw) (hpaired : ¬ Unpaired raw) :
    ∃ text, Spells raw text := by
  -- A pair takes two escapes at once, so the induction is on the length.
  induction hlen : raw.length using Nat.strong_induction_on generalizing raw with
  | _ length ih =>
    have hrest : ∀ {rest}, rest.length < raw.length → Written rest → ¬ Unpaired rest →
        ∃ text, Spells rest text := fun hlt hwritten hrest => ih _ (hlen ▸ hlt) hwritten hrest rfl
    cases h with
    | nil => exact ⟨[], .nil⟩
    | plain hcontrol hquote hslash hraw =>
      obtain ⟨text, htext⟩ := hrest (Nat.lt_succ_self _) hraw
        fun h => hpaired (.plain hslash h)
      exact ⟨_, .plain hcontrol hquote hslash htext⟩
    | escape hescaped hraw =>
      obtain ⟨text, htext⟩ := hrest (by simp only [List.length_cons]; omega) hraw
        fun h => hpaired (.escape hescaped h)
      obtain ⟨decoded, hdecoded⟩ := Option.isSome_iff_exists.mp hescaped
      exact ⟨_, .escape hdecoded htext⟩
    | unicode hquad hraw =>
      obtain ⟨n, hn⟩ := Option.isSome_iff_exists.mp hquad
      have hnotLow : isLowSurrogate n = false := by
        rw [Bool.eq_false_iff]
        exact fun hlow => hpaired (.low hn hlow)
      cases hhigh : isHighSurrogate n with
      | false =>
        obtain ⟨text, htext⟩ := hrest (by simp only [List.length_cons]; omega) hraw
          fun h => hpaired (.unicode hn hhigh h)
        exact ⟨_, .unicode hn hnotLow hhigh htext⟩
      | true =>
        obtain ⟨a, b, c, d, low, rest, rfl, hlow, hisLow⟩ : LowNext _ :=
          not_not.mp fun hnext => hpaired (.high hn hhigh hnext)
        obtain ⟨text, htext⟩ := hrest (by simp only [List.length_cons]; omega) hraw.of_unicode
          fun h => hpaired (.pair hn hhigh hlow hisLow h)
        exact ⟨_, .pair hn hhigh hlow hisLow htext⟩

/-- **A literal spells a text when all its surrogates are in pairs.** -/
theorem Written.exists_spells_iff (h : Written raw) :
    (∃ text, Spells raw text) ↔ ¬ Unpaired raw :=
  ⟨fun ⟨_, htext⟩ => htext.not_unpaired, h.exists_spells⟩

end Json.Literal

/-! ## Rows of text -/

namespace Convert

variable {source : ByteSource} {value : Option Node} {text? : Option String}
  {outcome : Outcome String}

/-- What becomes of the value of a row when it is converted to text. -/
inductive TextOutcome : Option Node → Outcome String → Prop where
  | absent : TextOutcome none .missing
  | null {span : Span} : TextOutcome (some (.null span)) .missing
  | spelled {span : Span} {raw : List Char} {text : String} : Literal.Spells raw text.toList →
    TextOutcome (some (.text span raw)) (.value text)
  | lost {span : Span} {raw : List Char} : Literal.Unpaired raw →
    TextOutcome (some (.text span raw)) .invalid
  | other {m : Node} : (∀ span, m ≠ .null span) → (∀ span raw, m ≠ .text span raw) →
    TextOutcome (some m) .invalid

/-- The class of a text, by the value that the text writes. -/
theorem textOutcome_of_class (hraw : View.RawCell source value text?)
    (hclass : texts.Class text? outcome) : TextOutcome value outcome := by
  cases hraw with
  | absent =>
    cases hclass
    exact .absent
  | @text m text _ hwrites =>
    cases hclass with
    | null =>
      obtain ⟨span, rfl⟩ := (eq_null_iff hwrites).mp rfl
      exact .null
    | value hreads =>
      obtain ⟨span, raw, rfl, hspells⟩ := (texts_reads_iff hwrites).mp hreads
      exact .spelled hspells
    | overflow hexceeds => exact hexceeds.elim
    | invalid hnull hnone =>
      have hm : ∀ span, m ≠ .null span := fun span heq =>
        hnull ((eq_null_iff hwrites).mpr ⟨span, heq⟩)
      cases m with
      | text span raw =>
        have hspells : ¬ ∃ text, Literal.Spells raw text := by
          rintro ⟨text, htext⟩
          refine hnone (String.ofList text) ((texts_reads_iff hwrites).mpr ⟨span, raw, rfl, ?_⟩)
          rwa [String.toList_ofList]
        exact .lost (not_not.mp (mt hwrites.2.2.exists_spells_iff.mpr hspells))
      | _ => exact .other hm nofun

end Convert

namespace View

variable {root v : View} {source : ByteSource} {config : Config}

/-- The value is a string that conversion loses. -/
def Lost (value : Option Node) : Prop :=
  ∃ span raw, value = some (.text span raw) ∧ Literal.Unpaired raw

/-- The strings in all records have all surrogates in pairs. -/
def PairedRecords (root : View) : Prop :=
  ∀ record ∈ root.records, ∀ m, Scanner.readTree root.source record = .ok m →
    ∀ span raw, (Node.text span raw).Part m → ¬ Literal.Unpaired raw

/-- What is kept of the strings in the rows of a view; `root` is the view that it comes from. -/
structure KeepsText (root v : View) : Prop where
  /-- One outcome for each row; the outcomes make up the values and the reports. -/
  converted : ∃ outcomes : List (Outcome String),
    v.toText = .ofOutcomes (outcomes.zip v.rowNumbers) ∧
      List.Forall₂ Convert.TextOutcome v.values outcomes
  /-- A simplified view of strings has a gap where there is no string or where it is lost. -/
  simplified : v.kind = .text → ∃ cells, v.simplify = .ok (.text cells) ∧
    List.Forall₂ (fun value cell => cell = none ↔ Vacant value ∨ Lost value) v.values cells
  /-- Where all surrogates are in pairs, no string is lost. -/
  of_paired : root.PairedRecords → ∀ value ∈ v.values, ¬ Lost value

theorem textOutcomes (hv : v.Sound) :
    List.Forall₂ Convert.TextOutcome v.values (v.rows.toList.map (v.outcome Convert.text)) := by
  rw [values, List.forall₂_map_left_iff, List.forall₂_map_right_iff, List.forall₂_same]
  intro row hrow
  have htext := textOf_of_stores (hv.stores row hrow)
  exact Convert.textOutcome_of_class (rawCell_of_textOf htext)
    (class_outcome Convert.finds_text htext)

/-- Of values that are not there, nulls and strings, a lost string leaves a gap like the former. -/
theorem toOption_eq_none_iff {value : Option Node} {outcome : Outcome String}
    (h : Convert.TextOutcome value outcome)
    (hvalue : Vacant value ∨ ∃ m, value = some m ∧ m.OfKind .text) :
    outcome.toOption = none ↔ Vacant value ∨ Lost value := by
  cases h with
  | absent => exact iff_of_true rfl (.inl (.inl rfl))
  | null => exact iff_of_true rfl (.inl (.inr ⟨_, rfl⟩))
  | spelled hspells =>
    refine iff_of_false nofun ?_
    rintro ((hnone | ⟨_, hnull⟩) | ⟨_, _, htext, hunpaired⟩)
    · cases hnone
    · cases hnull
    · cases htext
      exact hspells.not_unpaired hunpaired
  | lost hunpaired => exact iff_of_true rfl (.inr ⟨_, _, rfl, hunpaired⟩)
  | other hnull htext =>
    rcases hvalue with (hnone | ⟨span, heq⟩) | ⟨m, heq, span, raw, hm⟩
    · cases hnone
    · cases heq
      exact absurd rfl (hnull span)
    · cases heq
      exact absurd hm (htext span raw)

/-- **Strings are lost for surrogates without their other half alone**, over every chain of
views. -/
theorem keeps_text (hroot : load source config = .ok root) (h : root.Chain v) :
    KeepsText root v := by
  have hv := sound_chain hroot h
  refine ⟨⟨_, coerce_eq v Convert.text, textOutcomes hv⟩, fun hkind => ?_, fun hpaired => ?_⟩
  · refine ⟨v.toText.values, simplify_of_takes (.text hkind), ?_⟩
    have hevery := (kind_le_iff (k := .text) hv).mp (.inl hkind)
    have houtcomes := every_forall₂ hevery (textOutcomes hv)
    rw [toText, values_coerce]
    rw [List.forall₂_map_right_iff] at houtcomes ⊢
    refine houtcomes.imp ?_
    rintro _ _ ⟨hvalue, houtcome⟩
    exact toOption_eq_none_iff houtcome hvalue
  · rintro value hvalue ⟨span, raw, rfl, hunpaired⟩
    obtain ⟨row, hrow, hvalueOf⟩ := List.mem_map.mp hvalue
    have htraced := traced_chain hroot h
    rcases htraced.mem_records hrow with rfl | ⟨record, hrecord, node, m, hread, hm, hscanned⟩
    · cases hvalueOf
    have hread' := (readTree_part hread hm).1
    rw [← htraced.source_eq] at hread'
    cases hvalueOf.symm.trans (valueOf_of_scanned hscanned hread')
    exact hpaired record hrecord node hread span raw hm hunpaired

/-- A record that is half of a pair. -/
def halfText : ByteSource := .ofString "\"\\ud800\"\n"

/-- **A string can be lost**: the view has one string and no row of another kind, yet its row is
reported and the simplified view has a gap. -/
theorem not_kept_halfText : ¬ ∀ (source : ByteSource) (config : Config) (root v : View),
    load source config = .ok root → root.Chain v → v.kind = .text →
      v.toText.invalidRows = [] := by
  intro hkept
  have hrun : ((load halfText {}).toOption.map fun root => (root.kind, root.toText)) =
      some (.text, ⟨[none], [], [1]⟩) := by decide +kernel
  obtain ⟨root, hload, hfacts⟩ := Option.map_eq_some_iff.mp hrun
  obtain ⟨hkind, htexts⟩ := Prod.mk.inj hfacts
  have hrows := hkept halfText {} root root (eq_ok_of_toOption hload) .refl hkind
  rw [htexts] at hrows
  cases hrows

/-- Records with a string, half of a pair, a whole pair and no string. -/
def halfTexts : ByteSource := .ofString
  "\x7b\"a\":\"x\"\x7d\n\x7b\"a\":\"\\uDC00\"\x7d\n\x7b\"a\":\"\\ud83d\\ude00\"\x7d\n\x7b\x7d\n"

/-- The projection on the strings. -/
theorem keeps_text_halfTexts : ∃ root v, load halfTexts {} = .ok root ∧ root.Chain v ∧
    v.kind = .text ∧ v.toText = ⟨[some "x", none, some "😀", none], [], [2]⟩ ∧
      KeepsText root v := by
  have hrun : ((load halfTexts {}).toOption.bind fun root =>
      (root.field? "a").toOption.bind fun field => field.map fun v => (v.kind, v.toText)) =
        some (.text, ⟨[some "x", none, some "😀", none], [], [2]⟩) := by
    decide +kernel
  obtain ⟨root, hload, hrun⟩ := Option.bind_eq_some_iff.mp hrun
  obtain ⟨field, hfield, hrun⟩ := Option.bind_eq_some_iff.mp hrun
  obtain ⟨v, rfl, hfacts⟩ := Option.map_eq_some_iff.mp hrun
  obtain ⟨hkind, htexts⟩ := Prod.mk.inj hfacts
  have hroot := eq_ok_of_toOption hload
  have hchain : root.Chain v := .single (.field (eq_ok_of_toOption hfield))
  exact ⟨root, v, hroot, hchain, hkind, htexts, keeps_text hroot hchain⟩

end View

end JsonLines
