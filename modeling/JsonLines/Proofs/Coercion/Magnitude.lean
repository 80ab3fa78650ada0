/-
JsonLines.Proofs.Coercion.Magnitude — which literals are beyond the range of doubles.

A literal writes a decimal fraction, and its double is infinite when the fraction is as large as the
bound of the range or larger (`Numeral.toBinary64_isFinite_iff`). Reading the double does not take
in the whole of an exponent past 65535: this goes unnoticed unless tens of thousands of other digits
make up for such a power of ten (`Numeral.Ordinary`).
-/
import JsonLines.Coercion.Convert
import JsonLines.Proofs.Json.Numeral
import JsonLines.Proofs.Number.Rounding

namespace JsonLines.Numeral

variable {n : Numeral} {cs ds : List Char}

/-! ## The fraction that a literal writes -/

/-- The power of ten that an exponent writes. -/
def writtenPower : Option Exponent → Int
  | none => 0
  | some e => if e.negative then -(ofDigits e.digits : Int) else ofDigits e.digits

/-- The digits of the two parts of the fraction. -/
def digits (n : Numeral) : List Char := n.whole ++ n.fraction.getD []

/-- The number of digits after the point. -/
def places (n : Numeral) : Nat := (n.fraction.getD []).length

/-- The fraction that the literal writes, without its sign. -/
def magnitude (n : Numeral) : Rat :=
  ofDigits n.digits * 10 ^ (writtenPower n.exponent - n.places)

/-- The exponent is less than 65536, or there are too few digits to make up for a larger one. -/
def Ordinary (n : Numeral) : Prop :=
  (∀ e ∈ n.exponent, ofDigits e.digits < 65536) ∨ n.digits.length ≤ 65000

/-! ## Digits -/

theorem le_foldl {step : Nat → Char → Nat} (h : ∀ k ch, k ≤ step k ch) (k : Nat) :
    k ≤ ds.foldl step k := by
  induction ds generalizing k with
  | nil => exact Nat.le_refl k
  | cons ch ds ih => exact (h k ch).trans (ih (step k ch))

theorem foldl_digits_lt (h : ∀ ch ∈ ds, ch.isDigit) {k size : Nat} (hk : k < 10 ^ size) :
    ds.foldl (fun k ch => k * 10 + digitValue ch) k < 10 ^ (size + ds.length) := by
  induction ds generalizing k size with
  | nil => exact hk
  | cons ch ds ih =>
    have hch : digitValue ch ≤ 9 := by
      have hdigit := h ch List.mem_cons_self
      simp only [Char.isDigit, Bool.and_eq_true, decide_eq_true_eq] at hdigit
      have hle : ch.toNat ≤ 57 := UInt32.le_iff_toNat_le.mp hdigit.2
      unfold digitValue
      omega
    have hnext : k * 10 + digitValue ch < 10 ^ (size + 1) := by
      rw [Nat.pow_succ]
      omega
    have hrest := ih (fun c hc => h c (List.mem_cons_of_mem _ hc)) hnext
    rwa [List.foldl_cons, List.length_cons, Nat.add_comm ds.length 1, ← Nat.add_assoc]

/-- Digits write a number that has no more of them. -/
theorem ofDigits_lt (h : ∀ ch ∈ ds, ch.isDigit) : ofDigits ds < 10 ^ ds.length := by
  have hlt : ofDigits ds < 10 ^ (0 + ds.length) := foldl_digits_lt h Nat.one_pos
  rwa [Nat.zero_add] at hlt

theorem isDigit_of_mem_digits (h : n.Written cs) : ∀ ch ∈ n.digits, ch.isDigit := by
  obtain ⟨fraction, -, hwhole, hfraction, -, -⟩ := h
  intro ch hch
  rcases List.mem_append.mp hch with hch | hch
  · exact hwhole.isDigit ch hch
  · cases hparts : n.fraction with
    | none => simp [hparts] at hch
    | some part =>
      rw [hparts] at hfraction hch
      cases hfraction with
      | some hdigits => exact hdigits.2 ch hch

/-- **Exponent digits are read as they are written**, or both ways as 65536 or more. -/
theorem exponentValue_eq_or (ds : List Char) : exponentValue ds = ofDigits ds ∨
    65536 ≤ exponentValue ds ∧ 65536 ≤ ofDigits ds := by
  unfold exponentValue ofDigits
  generalize 0 = k
  induction ds generalizing k with
  | nil => exact .inl rfl
  | cons ch ds ih =>
    simp only [List.foldl_cons]
    split
    · exact ih (k * 10 + digitValue ch)
    · rename_i hlarge
      rw [Nat.not_lt] at hlarge
      refine .inr ⟨hlarge.trans (le_foldl (fun k ch => ?_) k),
        (show 65536 ≤ k * 10 + digitValue ch by omega).trans (le_foldl (fun k ch => ?_) _)⟩
      · split <;> omega
      · omega

/-! ## The range -/

open Binary64 (overflowBound)

variable {k length point e : Nat}

/-- Large powers of ten are beyond the range. -/
theorem bound_le_of_power (hk : k ≠ 0) (hpoint : point ≤ 65000) (he : 65536 ≤ e) :
    (overflowBound : Rat) ≤ k * 10 ^ ((e : Int) - point) := by
  obtain ⟨far, hfar, hbound⟩ : ∃ far ≤ 500, overflowBound ≤ Nat.pow 10 far :=
    ⟨309, by decide, by decide +kernel⟩
  have hone : (1 : Rat) ≤ k := Nat.one_le_cast.mpr (Nat.pos_of_ne_zero hk)
  have hpos : (0 : Rat) ≤ 10 ^ ((e : Int) - point) := zpow_nonneg (by norm_num) _
  have hpow : (10 : Rat) ^ (far : Int) ≤ 10 ^ ((e : Int) - point) :=
    zpow_le_zpow_right₀ (by norm_num) (by omega)
  calc (overflowBound : Rat) ≤ (Nat.pow 10 far : Nat) := Nat.cast_le.mpr hbound
    _ = (10 : Rat) ^ (far : Int) := by rw [zpow_natCast]; exact Nat.cast_pow 10 far
    _ ≤ 10 ^ ((e : Int) - point) := hpow
    _ ≤ k * 10 ^ ((e : Int) - point) := le_mul_of_one_le_left hpos hone

/-- Small powers of ten are within the range. -/
theorem lt_bound_of_power (hk : k < 10 ^ length) (hlength : length ≤ 65000)
    (he : 65536 ≤ e) : (k : Rat) * 10 ^ (-(e : Int) - point) < overflowBound := by
  have hbound : 1 ≤ overflowBound := by decide +kernel
  have hcast : (k : Rat) < 10 ^ (length : Int) := by exact_mod_cast hk
  have hpos : (0 : Rat) < 10 ^ (-(e : Int) - point) := zpow_pos (by norm_num) _
  calc (k : Rat) * 10 ^ (-(e : Int) - point)
      < 10 ^ (length : Int) * 10 ^ (-(e : Int) - point) := mul_lt_mul_of_pos_right hcast hpos
    _ = 10 ^ ((length : Int) + (-e - point)) := (zpow_add₀ (by norm_num) _ _).symm
    _ ≤ 1 := zpow_le_one_of_nonpos₀ (by norm_num) (by omega)
    _ ≤ overflowBound := Nat.one_le_cast.mpr hbound

/-- **A literal is beyond the range of doubles when the fraction that it writes is.** -/
theorem toBinary64_isFinite_iff (h : n.Written cs) (hordinary : n.Ordinary) :
    n.toBinary64.isFinite = false ↔ (overflowBound : Rat) ≤ n.magnitude := by
  have hread : n.toBinary64.isFinite = false ↔
      (overflowBound : Rat) ≤ ofDigits n.digits * 10 ^ (Numeral.power n.exponent - n.places) :=
    Binary64.ofDecimal_isFinite_iff _ _ _
  rw [hread, magnitude]
  cases hexponent : n.exponent with
  | none => rfl
  | some e =>
    simp only [Numeral.power, writtenPower]
    rcases exponentValue_eq_or e.digits with heq | ⟨hread, hwritten⟩
    · rw [heq]
    have hlength : n.digits.length ≤ 65000 := by
      rcases hordinary with hsmall | hlength
      · exact absurd (hsmall e hexponent) (Nat.not_lt.mpr hwritten)
      · exact hlength
    have hdigits := ofDigits_lt (isDigit_of_mem_digits h)
    -- The two powers differ, but both are as far from the bound as the sign tells.
    cases e.negative with
    | true =>
      exact iff_of_false (not_le.mpr (lt_bound_of_power hdigits hlength hread))
        (not_le.mpr (lt_bound_of_power hdigits hlength hwritten))
    | false =>
      have hplaces : n.places ≤ 65000 := by
        rw [digits, List.length_append] at hlength
        unfold places
        omega
      by_cases hzero : ofDigits n.digits = 0
      · rw [hzero, Nat.cast_zero, zero_mul, zero_mul]
      · exact iff_of_true (bound_le_of_power hzero hplaces hread)
          (bound_le_of_power hzero hplaces hwritten)

end JsonLines.Numeral
