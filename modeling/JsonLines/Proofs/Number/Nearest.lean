/-
JsonLines.Proofs.Number.Nearest — rounding to the closest double.

The finite doubles are the numbers with a significand of 53 bits and an exponent from -1074 to 971
(`Binary64.Representable`), and `Binary64.IsNearest` says of a double, without saying how it is
computed, that none of them is closer to a given number and that a tie goes to the even significand.
`nearest` chooses its last place by the number of bits of the fraction. The numbers with that place
or a larger one are its multiples, among which `roundHalfEven` decides; those with a smaller place
are all below the power of two that the fraction has reached, so each of them is farther away than
this power is.
-/
import JsonLines.Proofs.Number.Rounding
import Mathlib.Algebra.Order.Field.Basic
import Mathlib.Tactic.FieldSimp

namespace JsonLines

/-! ## Rounding to an integer -/

/-- The integer is within a half of the number, and even when it is a half away. -/
def Rounds (t : Rat) (k : Nat) : Prop :=
  |t - k| ≤ 1 / 2 ∧ (|t - k| = 1 / 2 → k % 2 = 0)

variable {t other : Rat} {num den k : Nat}

/-- What rounding a quotient leaves over is at most half of the denominator. -/
theorem rest_roundHalfEven (num : Nat) (hden : 0 < den) : ∃ rest : Int,
    (num : Int) = roundHalfEven num den * den + rest ∧ -den ≤ 2 * rest ∧ 2 * rest ≤ den ∧
      (2 * rest = den ∨ 2 * rest = -den → roundHalfEven num den % 2 = 0) := by
  have hnum := Nat.div_add_mod num den
  have hmod := Nat.mod_lt num hden
  unfold roundHalfEven
  dsimp only
  generalize num / den = quotient at hnum
  generalize num % den = rest at hnum hmod
  have hdown : (num : Int) = quotient * den + rest := by
    rw [← hnum]
    push_cast
    ring
  have hup : (num : Int) = (quotient + 1 : Nat) * den + (rest - den) := by
    rw [hdown]
    push_cast
    ring
  split
  · exact ⟨rest, hdown, by omega, by omega, by omega⟩
  split
  · exact ⟨rest - den, hup, by omega, by omega, by omega⟩
  -- In a tie the neighbour that is taken is the even one of the two.
  rcases Nat.mod_two_eq_zero_or_one quotient with hparity | hparity
  · rw [hparity]
    exact ⟨rest, hdown, by omega, by omega, fun _ => hparity⟩
  · rw [hparity]
    exact ⟨rest - den, hup, by omega, by omega, fun _ => by omega⟩

theorem rounds_roundHalfEven (num : Nat) (hden : 0 < den) :
    Rounds ((num : Rat) / den) (roundHalfEven num den) := by
  obtain ⟨rest, hnum, hlow, hhigh, htie⟩ := rest_roundHalfEven num hden
  have hpos : (0 : Rat) < den := Nat.cast_pos.mpr hden
  have hdistance : (num : Rat) / den - roundHalfEven num den = rest / den := by
    have hcast : (num : Rat) = roundHalfEven num den * den + rest := by exact_mod_cast hnum
    rw [hcast, add_div, mul_div_cancel_right₀ _ hpos.ne', add_sub_cancel_left]
  have habs : |2 * rest| ≤ (den : Int) := abs_le.mpr ⟨hlow, hhigh⟩
  rw [Rounds, hdistance, abs_div, Nat.abs_cast, div_le_div_iff₀ hpos (by norm_num),
    div_eq_div_iff hpos.ne' (by norm_num), one_mul, mul_comm]
  constructor
  · rw [abs_mul, abs_two] at habs
    exact_mod_cast habs
  · intro htie'
    refine htie (abs_eq (Int.natCast_nonneg den) |>.mp ?_)
    rw [abs_mul, abs_two]
    exact_mod_cast htie'

/-- No integer is closer, and if one is as close, the rounded one is even. -/
theorem Rounds.closest (h : Rounds t k) (i : Int) :
    |t - k| ≤ |t - i| ∧ (i ≠ k → |t - i| = |t - k| → k % 2 = 0) := by
  by_cases heq : i = k
  · subst heq
    exact ⟨le_of_eq rfl, fun hne => absurd rfl hne⟩
  have hapart : (1 : Rat) ≤ |((i : Rat) - k)| := by
    have hone : 1 ≤ |i - k| := Int.one_le_abs (sub_ne_zero.mpr heq)
    exact_mod_cast hone
  have hbetween : |(i : Rat) - k| ≤ |t - i| + |t - k| := by
    calc |(i : Rat) - k| = |(t - k) - (t - i)| := congrArg _ (by ring)
      _ ≤ |t - k| + |t - i| := abs_sub _ _
      _ = |t - i| + |t - k| := add_comm _ _
  have hhalf := h.1
  refine ⟨by linarith, fun _ htie => h.2 ?_⟩
  linarith

/-- Numbers below an integer that has been reached are farther away than the rounded one is. -/
theorem Rounds.lt_of_lt (h : Rounds t k) {i : Int} (hreached : (i : Rat) ≤ t) (hlt : other < i) :
    |t - k| < |t - other| := by
  calc |t - k| ≤ |t - i| := (h.closest i).1
    _ = t - i := abs_of_nonneg (sub_nonneg.mpr hreached)
    _ < t - other := by linarith
    _ ≤ |t - other| := le_abs_self _

/-- Among the multiples of a place, and the numbers below one that has been reached, none is closer
than the rounded one. -/
theorem Rounds.closest_place (h : Rounds t k) {place : Rat} (hplace : 0 < place)
    (hother : (∃ i : Int, other = i) ∨ ∃ i : Int, (i : Rat) ≤ t ∧ other < i) :
    |t * place - k * place| ≤ |t * place - other * place| ∧
      (other ≠ k → |t * place - other * place| = |t * place - k * place| → k % 2 = 0) := by
  rw [← sub_mul, ← sub_mul, abs_mul, abs_mul, abs_of_pos hplace]
  rcases hother with ⟨i, rfl⟩ | ⟨i, hreached, hlt⟩
  · obtain ⟨hle, htie⟩ := h.closest i
    refine ⟨mul_le_mul_of_nonneg_right hle hplace.le, fun hne heq => htie ?_ ?_⟩
    · rintro rfl
      exact hne (Int.cast_natCast k)
    · exact mul_right_cancel₀ hplace.ne' heq
  · have hfar := mul_lt_mul_of_pos_right (h.lt_of_lt hreached hlt) hplace
    exact ⟨hfar.le, fun _ heq => absurd heq hfar.ne'⟩

namespace Binary64

/-! ## The finite doubles -/

/-- The magnitude of a code. -/
def magnitude (code : Nat) : Rat := units code / unitsOfOne

/-- A magnitude with a sign, which zero loses. -/
def signed (negative : Bool) (v : Rat) : Rat := if negative then -v else v

/-- The number that a finite double stands for. -/
def toRat (x : Binary64) : Rat := signed x.negative (magnitude x.code)

/-- Some finite double stands for the number: it has a significand of 53 bits and an exponent from
-1074, that of the least positive double, to 971, that of the largest. -/
def Representable (q : Rat) : Prop :=
  ∃ m e : Int, |m| < 2 ^ 53 ∧ -1074 ≤ e ∧ e ≤ 971 ∧ q = m * 2 ^ e

/-- The double is the closest one to a number, of two that are as close the one whose significand is
even. -/
structure IsNearest (x : Binary64) (v : Rat) : Prop where
  finite : x.isFinite = true
  representable : Representable x.toRat
  closest : ∀ q, Representable q → |v - x.toRat| ≤ |v - q|
  tie : ∀ q, Representable q → q ≠ x.toRat → |v - q| = |v - x.toRat| →
    significand x.code % 2 = 0

variable {q v : Rat} {code scale : Nat} {x : Binary64}

theorem signed_signed (negative : Bool) (v : Rat) : signed negative (signed negative v) = v := by
  cases negative with
  | false => rfl
  | true => exact neg_neg v

theorem abs_signed_sub (negative : Bool) (u v : Rat) :
    |signed negative u - v| = |u - signed negative v| := by
  cases negative with
  | false => rfl
  | true =>
    calc |(-u) - v| = |u + v| := by rw [← abs_neg]; congr 1; ring
      _ = |u - -v| := by rw [sub_neg_eq_add]

theorem Representable.signed (h : Representable q) (negative : Bool) :
    Representable (signed negative q) := by
  obtain ⟨m, e, hm, hlow, hhigh, rfl⟩ := h
  cases negative with
  | false => exact ⟨m, e, hm, hlow, hhigh, rfl⟩
  | true => exact ⟨-m, e, by rwa [abs_neg], hlow, hhigh, by push_cast; exact (neg_mul _ _).symm⟩

theorem cast_pow_two (n : Nat) : (Nat.pow 2 n : Nat) = (2 : Rat) ^ (n : Int) := by
  rw [zpow_natCast, Nat.pow_eq, Nat.cast_pow, Nat.cast_ofNat]

/-- The least last place is two to minus this power. -/
def leastPlace : Nat := 1074

theorem leastPlace_eq : leastPlace = 1074 := rfl

theorem unitsOfOne_eq : (unitsOfOne : Rat) = 2 ^ (leastPlace : Int) := by
  have hpow : unitsOfOne = Nat.pow 2 leastPlace := by decide +kernel
  rw [hpow, cast_pow_two]

theorem unitsOfOne_pos' : (0 : Rat) < unitsOfOne := Nat.cast_pos.mpr unitsOfOne_pos

theorem significand_lt (code : Nat) : significand code < 2 ^ 53 := by
  unfold significand scaleSize
  split <;> omega

/-- The magnitude of a code is its significand times a power of two. -/
theorem magnitude_eq (code : Nat) :
    magnitude code = significand code * 2 ^ ((Binary64.scale code : Int) - leastPlace) := by
  rw [magnitude, units, unitsOfOne_eq, zpow_sub₀ two_ne_zero, ← mul_div_assoc, Nat.cast_mul,
    cast_pow_two]

theorem representable_magnitude (hfinite : code < infinity) : Representable (magnitude code) := by
  have hplace := leastPlace_eq
  refine ⟨significand code, (Binary64.scale code : Int) - leastPlace, ?_, by omega, ?_, ?_⟩
  · rw [Nat.abs_cast]
    exact_mod_cast significand_lt code
  · unfold infinity scaleSize at hfinite
    unfold Binary64.scale scaleSize
    omega
  · rw [magnitude_eq]
    rfl

theorem representable_toRat (hfinite : x.isFinite = true) : Representable x.toRat :=
  (representable_magnitude (of_decide_eq_true hfinite)).signed x.negative

/-! ## The last place of a rounded fraction -/

/-- A rounded significand and a scale make a code, also where the significand is one too large. -/
theorem units_add (hk : k ≤ 2 * scaleSize) (hscale : scale = 0 ∨ scaleSize ≤ k) :
    units (k + scale * scaleSize) = k * 2 ^ scale ∧
      significand (k + scale * scaleSize) % 2 = k % 2 := by
  rcases Nat.lt_or_ge k scaleSize with hsmall | hlarge
  · obtain rfl : scale = 0 := by omega
    have hsignificand : significand k = k := if_pos hsmall
    have hplace : Binary64.scale k = 0 := by
      rw [Binary64.scale, Nat.div_eq_of_lt hsmall]
    simp [units, hsignificand, hplace]
  rcases Nat.lt_or_eq_of_le hk with hlt | rfl
  · have hsignificand : significand (k + scale * scaleSize) = k := by
      unfold significand scaleSize at *
      split <;> omega
    have hplace : Binary64.scale (k + scale * scaleSize) = scale := by
      unfold Binary64.scale scaleSize at *
      omega
    rw [units, hsignificand, hplace]
    exact ⟨rfl, rfl⟩
  -- Twice the least significand is the least one of the next scale.
  · have hsignificand : significand (2 * scaleSize + scale * scaleSize) = scaleSize := by
      unfold significand scaleSize at *
      split <;> omega
    have hplace : Binary64.scale (2 * scaleSize + scale * scaleSize) = scale + 1 := by
      unfold Binary64.scale scaleSize at *
      omega
    rw [units, hsignificand, hplace, Nat.pow_eq, Nat.pow_succ]
    exact ⟨by ring, by decide⟩

/-- The floor of a quotient that is scaled by the number of its bits has 53 of them, or fewer when
the scale is the least one. -/
theorem bits_div_scaled (scaled den : Nat) (hscale : scale = Nat.log2 (scaled / den) - 52) :
    scaled / (den * 2 ^ scale) < 2 ^ 53 ∧ (scale = 0 ∨ 2 ^ 52 ≤ scaled / (den * 2 ^ scale)) := by
  rw [div_scaled, Nat.div_lt_iff_lt_mul (Nat.two_pow_pos scale),
    Nat.le_div_iff_mul_le (Nat.two_pow_pos scale), ← Nat.pow_add, ← Nat.pow_add]
  refine ⟨lt_two_pow_of_log2_lt (by omega), ?_⟩
  rcases Nat.eq_zero_or_pos scale with hzero | hpos
  · exact .inl hzero
  · exact .inr (two_pow_le_of_le_log2 (by omega) (by omega))

/-- How `nearest` rounds: to a multiple of some last place, which is the least one or small enough
for the fraction to have reached the least significand. -/
theorem exists_rounds (num : Nat) (hden : 0 < den) (hfinite : nearest num den < infinity) :
    ∃ scale k, units (nearest num den) = k * 2 ^ scale ∧
      significand (nearest num den) % 2 = k % 2 ∧
      Rounds ((num * unitsOfOne : Nat) / (den * 2 ^ scale : Nat)) k ∧
      (scale = 0 ∨
        (2 ^ 52 : Nat) ≤ ((num * unitsOfOne : Nat) / (den * 2 ^ scale : Nat) : Rat)) := by
  have hcode : nearest num den = roundHalfEven (num * unitsOfOne)
      (den * 2 ^ (Nat.log2 (num * unitsOfOne / den) - 52)) +
        (Nat.log2 (num * unitsOfOne / den) - 52) * scaleSize :=
    (min_choice _ _).resolve_left (Nat.ne_of_lt hfinite)
  generalize num * unitsOfOne = scaled at hcode ⊢
  generalize hscale : Nat.log2 (scaled / den) - 52 = scale at hcode
  have hpos : 0 < den * 2 ^ scale := Nat.mul_pos hden (Nat.two_pow_pos scale)
  obtain ⟨hlt, hreached⟩ := bits_div_scaled scaled den hscale.symm
  have hlow := div_le_roundHalfEven scaled (den * 2 ^ scale)
  have hhigh := roundHalfEven_le scaled (den * 2 ^ scale)
  have hk : roundHalfEven scaled (den * 2 ^ scale) ≤ 2 * scaleSize := by
    unfold scaleSize
    omega
  have hscaled : scale = 0 ∨ scaleSize ≤ roundHalfEven scaled (den * 2 ^ scale) := by
    unfold scaleSize
    omega
  obtain ⟨hunits, hparity⟩ := units_add hk hscaled
  refine ⟨scale, _, ?_, ?_, rounds_roundHalfEven scaled hpos, hreached.imp_right fun h => ?_⟩
  · rw [hcode, hunits]
  · rw [hcode, hparity]
  · rw [le_div_iff₀ (Nat.cast_pos.mpr hpos), ← Nat.cast_mul, Nat.cast_le]
    exact (Nat.le_div_iff_mul_le hpos).mp h

/-- In any last place a number is a multiple of it, or its significand is less than the least. -/
theorem Representable.places (h : Representable q) (scale : Nat) :
    (∃ i : Int, q * unitsOfOne = i * 2 ^ scale) ∨
      scale ≠ 0 ∧ q * unitsOfOne < (2 ^ 52 : Int) * 2 ^ scale := by
  obtain ⟨m, e, hm, hlow, -, rfl⟩ := h
  have hleast := leastPlace_eq
  obtain ⟨place, hplace⟩ := Int.eq_ofNat_of_zero_le (show 0 ≤ e + leastPlace by omega)
  have hunits : (m : Rat) * 2 ^ e * unitsOfOne = m * 2 ^ place := by
    rw [unitsOfOne_eq, mul_assoc, ← zpow_add₀ two_ne_zero, hplace, zpow_natCast]
  rw [hunits]
  rcases Nat.lt_or_ge place scale with hlt | hge
  · have hsmall : m * 2 ^ place < 2 ^ 52 * 2 ^ scale := by
      calc m * 2 ^ place < 2 ^ 53 * 2 ^ place :=
            mul_lt_mul_of_pos_right (lt_of_abs_lt hm) (by positivity)
        _ = 2 ^ 52 * 2 ^ (place + 1) := by ring
        _ ≤ 2 ^ 52 * 2 ^ scale :=
            mul_le_mul_of_nonneg_left (pow_le_pow_right₀ (by decide) hlt) (by decide)
    exact .inr ⟨by omega, by exact_mod_cast hsmall⟩
  · refine .inl ⟨m * 2 ^ (place - scale), ?_⟩
    push_cast
    rw [mul_assoc, ← pow_add, Nat.sub_add_cancel hge]

/-- **No double is closer to a fraction than `nearest` is**, and if one is as close, the significand
of `nearest` is even. -/
theorem nearest_closest (num : Nat) (hden : 0 < den) (hfinite : nearest num den < infinity)
    (hq : Representable q) :
    |(num : Rat) / den - magnitude (nearest num den)| ≤ |(num : Rat) / den - q| ∧
      (q ≠ magnitude (nearest num den) →
        |(num : Rat) / den - q| = |(num : Rat) / den - magnitude (nearest num den)| →
          significand (nearest num den) % 2 = 0) := by
  obtain ⟨scale, k, hunits, hparity, hrounds, hreached⟩ := exists_rounds num hden hfinite
  have hplaces := hq.places scale
  have hone := unitsOfOne_pos'
  have hden' : (0 : Rat) < den := Nat.cast_pos.mpr hden
  have hrounded : magnitude (nearest num den) = k * (2 ^ scale / unitsOfOne) := by
    rw [magnitude, hunits, Nat.cast_mul, Nat.cast_pow, Nat.cast_ofNat, mul_div_assoc]
  rw [Nat.cast_mul] at hrounds hreached
  rw [hparity, hrounded]
  -- From here on all numbers are multiples of the last place.
  generalize (unitsOfOne : Rat) = one at hone hrounds hreached hplaces ⊢
  have hplace : (0 : Rat) < 2 ^ scale / one := by positivity
  generalize ht : (num * one / (den * 2 ^ scale : Nat) : Rat) = t at hrounds hreached
  have hfraction : (num : Rat) / den = t * (2 ^ scale / one) := by
    rw [← ht]
    push_cast
    field_simp
  obtain ⟨other, rfl⟩ : ∃ other, q = other * (2 ^ scale / one) :=
    ⟨q / (2 ^ scale / one), (div_mul_cancel₀ _ hplace.ne').symm⟩
  have hother : other * (2 ^ scale / one) * one = other * 2 ^ scale := by
    field_simp
  rw [hother] at hplaces
  have hmultiple : (∃ i : Int, other = i) ∨ ∃ i : Int, (i : Rat) ≤ t ∧ other < i := by
    rcases hplaces with ⟨i, hi⟩ | ⟨hscale, hsmall⟩
    · exact .inl ⟨i, mul_right_cancel₀ (by positivity) hi⟩
    · exact .inr ⟨2 ^ 52, by exact_mod_cast hreached.resolve_left hscale,
        lt_of_mul_lt_mul_right hsmall (by positivity)⟩
  rw [hfraction]
  obtain ⟨hle, htie⟩ := hrounds.closest_place hplace hmultiple
  exact ⟨hle, fun hne => htie fun heq => hne (by rw [heq])⟩

/-! ## Decimal fractions -/

/-- The sign of a fraction is that of its closest double. -/
theorem isNearest_nearest (negative : Bool) (num : Nat) (hden : 0 < den)
    (hfinite : nearest num den < infinity) :
    IsNearest ⟨negative, nearest num den⟩ (signed negative (num / den)) := by
  have hx : (⟨negative, nearest num den⟩ : Binary64).toRat =
      signed negative (magnitude (nearest num den)) := rfl
  refine ⟨decide_eq_true hfinite, representable_toRat (decide_eq_true hfinite), ?_, ?_⟩
  · intro q hq
    rw [hx, abs_signed_sub, abs_signed_sub, signed_signed]
    exact (nearest_closest num hden hfinite (hq.signed negative)).1
  · intro q hq hne htie
    rw [hx, abs_signed_sub, abs_signed_sub, signed_signed] at htie
    refine (nearest_closest num hden hfinite (hq.signed negative)).2 (fun heq => hne ?_) htie
    rw [hx, ← heq, signed_signed]

/-- **The double of a decimal fraction is the closest one**, unless it is infinite. -/
theorem isNearest_ofDecimal (negative : Bool) (digits : Nat) (exponent : Int)
    (hfinite : (ofDecimal negative digits exponent).isFinite = true) :
    IsNearest (ofDecimal negative digits exponent) (signed negative (digits * 10 ^ exponent)) := by
  cases exponent with
  | ofNat e =>
    have hcast : (digits : Rat) * 10 ^ Int.ofNat e = (digits * Nat.pow 10 e : Nat) / (1 : Nat) := by
      rw [Int.ofNat_eq_natCast, zpow_natCast, Nat.cast_mul, Nat.pow_eq, Nat.cast_pow,
        Nat.cast_ofNat, Nat.cast_one, div_one]
    rw [hcast]
    exact isNearest_nearest negative _ Nat.one_pos (of_decide_eq_true hfinite)
  | negSucc e =>
    have hcast : (digits : Rat) * 10 ^ Int.negSucc e = digits / (Nat.pow 10 (e + 1) : Nat) := by
      rw [zpow_negSucc, Nat.pow_eq, Nat.cast_pow, Nat.cast_ofNat, div_eq_mul_inv]
    rw [hcast]
    exact isNearest_nearest negative digits (Nat.pow_pos (by decide)) (of_decide_eq_true hfinite)

/-! ## Numbers that doubles represent -/

/-- A number that a double stands for is its own closest double. -/
theorem IsNearest.toRat_eq (h : IsNearest x v) (hv : Representable v) : x.toRat = v := by
  have hle := h.closest v hv
  rw [sub_self, abs_zero] at hle
  exact (sub_eq_zero.mp (abs_eq_zero.mp (le_antisymm hle (abs_nonneg _)))).symm

/-- Integers of 53 bits are represented. -/
theorem representable_int {i : Int} (h : |i| < 2 ^ 53) : Representable i :=
  ⟨i, 0, h, by decide, by decide, by rw [zpow_zero, mul_one]⟩

end Binary64

end JsonLines
