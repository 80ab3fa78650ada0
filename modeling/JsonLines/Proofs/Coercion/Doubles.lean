/-
JsonLines.Proofs.Coercion.Doubles — the double of a row is the closest one to its literal.

A literal writes a decimal fraction of any length. The double that a row is converted to is the one
that is closest to the fraction, with the sign of the literal even where that is zero; only from the
bound of the range on is there none, and the row is reported instead (`Numeral.RoundsTo`). Reading
takes in all of an exponent that is below 65536 (`Numeral.ShortPower`).
-/
import JsonLines.Proofs.Coercion.Classification
import JsonLines.Proofs.Number.Nearest

namespace JsonLines

open Json

variable {n : Numeral} {text : String}

namespace Numeral

/-- The exponent, if the literal has one, is less than 65536. -/
def ShortPower (n : Numeral) : Prop := ∀ e ∈ n.exponent, ofDigits e.digits < 65536

/-- The number that the literal writes. -/
def value (n : Numeral) : Rat := Binary64.signed n.negative n.magnitude

/-- What converting the literal must give: the closest double, with the sign of the literal, unless
its magnitude is beyond the range. -/
inductive RoundsTo (n : Numeral) : Outcome Binary64 → Prop where
  | value {x : Binary64} : n.magnitude < Binary64.overflowBound → x.IsNearest n.value →
    x.negative = n.negative → RoundsTo n (.value x)
  | overflow : Binary64.overflowBound ≤ n.magnitude → RoundsTo n .overflow

theorem ShortPower.power_eq (h : n.ShortPower) : power n.exponent = writtenPower n.exponent := by
  cases hexponent : n.exponent with
  | none => rfl
  | some e =>
    have hread : exponentValue e.digits = ofDigits e.digits := by
      rcases exponentValue_eq_or e.digits with heq | ⟨-, hlarge⟩
      · exact heq
      · exact absurd (h e hexponent) (Nat.not_lt.mpr hlarge)
    simp only [power, writtenPower, hread]

/-- The double of a literal is that of the fraction that the literal writes. -/
theorem ShortPower.toBinary64_eq (h : n.ShortPower) : n.toBinary64 =
    Binary64.ofDecimal n.negative (ofDigits n.digits) (writtenPower n.exponent - n.places) := by
  rw [← h.power_eq]
  rfl

theorem negative_toBinary64 (n : Numeral) : n.toBinary64.negative = n.negative := by
  unfold toBinary64
  dsimp only
  generalize power n.exponent - ((n.fraction.getD []).length : Int) = exponent
  cases exponent with
  | ofNat e => rfl
  | negSucc e => rfl

theorem ShortPower.isFinite_eq_false_iff (h : n.ShortPower) :
    n.toBinary64.isFinite = false ↔ (Binary64.overflowBound : Rat) ≤ n.magnitude := by
  rw [h.toBinary64_eq]
  exact Binary64.ofDecimal_isFinite_iff _ _ _

/-- **The double of a literal is the closest one to it**, and infinite from the bound on. -/
theorem ShortPower.roundsTo (h : n.ShortPower) :
    n.RoundsTo (if n.toBinary64.isFinite then .value n.toBinary64 else .overflow) := by
  cases hfinite : n.toBinary64.isFinite with
  | true =>
    refine .value ?_ ?_ n.negative_toBinary64
    · rw [← not_le, ← h.isFinite_eq_false_iff, hfinite]
      decide
    · rw [h.toBinary64_eq] at hfinite ⊢
      exact Binary64.isNearest_ofDecimal _ _ _ hfinite
  | false => exact .overflow (h.isFinite_eq_false_iff.mp hfinite)

end Numeral

namespace View

variable {root v : View} {row : Cell}

/-- The outcome of a row is the one of the class that its text is in. -/
theorem outcome_eq_of_class {α : Type} {target : Convert.Target α} {text? : Option String}
    {convert : Kind → List Char → Outcome α} {outcome : Outcome α} (hlawful : target.Lawful)
    (hfinds : target.Finds convert) (h : v.TextOf row text?)
    (hclass : target.Class text? outcome) : v.outcome convert row = outcome :=
  (Convert.Target.existsUnique_class hlawful text?).unique (class_outcome hfinds h) hclass

/-- A row with the text of a literal is converted as the literal is. -/
theorem outcome_real_of_written (h : v.TextOf row (some text)) (hwritten : n.Written text.toList) :
    v.outcome Convert.real row =
      if n.toBinary64.isFinite then .value n.toBinary64 else .overflow := by
  refine outcome_eq_of_class Convert.lawful_reals Convert.finds_real h ?_
  split
  · exact .value ⟨n, hwritten, rfl, ‹_›⟩
  · exact .overflow ⟨n, hwritten, Bool.eq_false_of_not_eq_true ‹_›⟩

theorem forall₂_textOf (hv : v.Sound) : List.Forall₂ v.TextOf v.rows.toList v.toJsonText := by
  rw [toJsonText, List.forall₂_map_right_iff, List.forall₂_same]
  exact fun row hrow => textOf_of_stores (hv.stores row hrow)

/-- The rows whose texts are literals are converted to the closest doubles. -/
structure RoundsRows (v : View) : Prop where
  texts_of_rows : List.Forall₂ v.TextOf v.rows.toList v.toJsonText
  /-- One outcome for each row; the outcomes make up the values and the reports. -/
  rounded : ∃ outcomes : List (Outcome Binary64),
    v.toReal = .ofOutcomes (outcomes.zip v.rowNumbers) ∧
    List.Forall₂ (fun text? outcome => ∀ text (n : Numeral), text? = some text →
      n.Written text.toList → n.ShortPower → n.RoundsTo outcome) v.toJsonText outcomes

/-- **Every literal is converted to the closest double**, or reported from the bound of the range
on, over every chain of views. -/
theorem rounds_rows {source : ByteSource} {config : Config}
    (hroot : load source config = .ok root) (h : root.Chain v) : v.RoundsRows := by
  have htexts := forall₂_textOf (sound_chain hroot h)
  refine ⟨htexts, v.rows.toList.map (v.outcome Convert.real), coerce_eq v Convert.real, ?_⟩
  rw [List.forall₂_map_right_iff]
  refine htexts.flip.imp fun text? row htext text n heq hwritten hshort => ?_
  subst heq
  rw [outcome_real_of_written htext hwritten]
  exact hshort.roundsTo

/-- Five records: two negative zeros, one of them by underflow, a number that is no double, one
beyond the range, and a string. -/
def outermostDoubles : ByteSource :=
  .ofString "-0\n-1e-400\n0.1\n1e309\n\"x\"\n"

/-- The records in reverse. -/
theorem rounds_rows_outermostDoubles : ∃ root v, load outermostDoubles {} = .ok root ∧
    root.Chain v ∧ v.toReal =
      ⟨[none, none, some ⟨false, 4591870180066957722⟩, some ⟨true, 0⟩, some ⟨true, 0⟩], [4], [5]⟩ ∧
      v.RoundsRows := by
  have hrun : ((load outermostDoubles {}).toOption.bind fun root =>
      (root.select [5, 4, 3, 2, 1]).toOption.map fun v => v.toReal) =
        some ⟨[none, none, some ⟨false, 4591870180066957722⟩, some ⟨true, 0⟩, some ⟨true, 0⟩],
          [4], [5]⟩ := by
    decide +kernel
  obtain ⟨root, hload, hrun⟩ := Option.bind_eq_some_iff.mp hrun
  obtain ⟨v, hselect, hvalues⟩ := Option.map_eq_some_iff.mp hrun
  have hroot := eq_ok_of_toOption hload
  have hchain : root.Chain v := .single (.select (eq_ok_of_toOption hselect))
  exact ⟨root, v, hroot, hchain, hvalues, rounds_rows hroot hchain⟩

end View

end JsonLines
