/-
JsonLines.Proofs.Number.Rounding — where the range of doubles ends.

The largest double is one last place, two to the power of 971, below two to the power of 1024.
Half a place above it lies `overflowBound`, from which on fractions are rounded out of the range:
on the bound itself the even neighbour is the one past the largest double
(`nearest_eq_infinity_iff`). The scale that `nearest` rounds at is told by the number of bits of the
floor, so there are three cases: too few bits for the range to end, too many for it not to, and the
number of bits of the largest double, where the rounded quotient decides.
-/
import JsonLines.Number.Binary64
import Mathlib.Algebra.Order.Field.Rat
import Mathlib.Algebra.Order.Ring.Nat
import Mathlib.Tactic.Linarith
import Mathlib.Tactic.Ring

namespace JsonLines

variable {num den k : Nat}

/-! ## Rounding quotients -/

theorem div_le_roundHalfEven (num den : Nat) : num / den ≤ roundHalfEven num den := by
  unfold roundHalfEven
  dsimp only
  split
  · exact Nat.le_refl _
  · split <;> omega

theorem roundHalfEven_le (num den : Nat) : roundHalfEven num den ≤ num / den + 1 := by
  unfold roundHalfEven
  dsimp only
  split
  · omega
  · split <;> omega

/-- **A quotient is rounded past an odd number** when it is half way to the next one, which is
even. -/
theorem lt_roundHalfEven_iff (hden : 0 < den) (hk : k % 2 = 1) :
    k < roundHalfEven num den ↔ (2 * k + 1) * den ≤ 2 * num := by
  have hnum := Nat.div_add_mod num den
  have hmod := Nat.mod_lt num hden
  unfold roundHalfEven
  dsimp only
  generalize num / den = quotient at hnum
  generalize num % den = rest at hnum hmod
  rw [← hnum]
  rcases Nat.lt_trichotomy k quotient with hlt | rfl | hgt
  · have hle : (2 * k + 1) * den ≤ 2 * (den * quotient) := by
      have hstep : 2 * k + 1 ≤ 2 * quotient := by omega
      calc (2 * k + 1) * den ≤ 2 * quotient * den := Nat.mul_le_mul_right den hstep
        _ = 2 * (den * quotient) := by ring
    refine iff_of_true ?_ (by omega)
    split
    · exact hlt
    · split <;> omega
  · have hexact : (2 * k + 1) * den = 2 * (den * k) + den := by ring
    rw [hexact]
    split
    · omega
    · split <;> omega
  · have hlt : 2 * (den * quotient + rest) < (2 * k + 1) * den := by
      have hstep : 2 * quotient + 3 ≤ 2 * k + 1 := by omega
      calc 2 * (den * quotient + rest) < (2 * quotient + 3) * den := by nlinarith only [hmod]
        _ ≤ (2 * k + 1) * den := Nat.mul_le_mul_right den hstep
    refine iff_of_false ?_ (Nat.not_le.mpr hlt)
    split
    · omega
    · split <;> omega

namespace Binary64

/-! ## The end of the range -/

/-- The magnitude half a last place above the largest double, from which on a double is infinite. -/
def overflowBound : Nat := Nat.pow 2 1024 - Nat.pow 2 970

/-- Half of the last place of the largest doubles is two to this power, in units of `2^-1074`. -/
def halfPlace : Nat := 2044

theorem halfPlace_eq : halfPlace = 2044 := rfl

/-- The bound in units of `2^-1074`: half a place less than two to the power of 54 of them. -/
theorem overflowBound_mul : overflowBound * unitsOfOne = (2 ^ 54 - 1) * 2 ^ halfPlace := by
  decide +kernel

theorem unitsOfOne_pos : 0 < unitsOfOne := by decide +kernel

theorem nearest_le_infinity (num den : Nat) : nearest num den ≤ infinity := Nat.min_le_left _ _

variable {scaled scale bits quotient : Nat}

/-! ### The number of bits -/

theorem lt_two_pow_of_log2_lt (h : Nat.log2 quotient < bits) : quotient < 2 ^ bits :=
  Nat.lt_of_lt_of_le Nat.lt_log2_self (Nat.pow_le_pow_right (by decide) h)

theorem two_pow_le_of_le_log2 (hbits : bits ≠ 0) (h : bits ≤ Nat.log2 quotient) :
    2 ^ bits ≤ quotient := by
  have hne : quotient ≠ 0 := by
    rintro rfl
    exact hbits (Nat.le_zero.mp h)
  exact Nat.le_trans (Nat.pow_le_pow_right (by decide) h) (Nat.log2_self_le hne)

/-- The floor of a scaled quotient. -/
theorem div_scaled (scaled den scale : Nat) :
    scaled / (den * 2 ^ scale) = scaled / den / 2 ^ scale :=
  (Nat.div_div_eq_div_mul scaled den (2 ^ scale)).symm

/-! ### Too few bits, too many, and as many as the largest double has -/

/-- With few bits the scale is too low for the range to end. -/
theorem rounded_lt_infinity (hbits : Nat.log2 (scaled / den) < halfPlace + 53)
    (hscale : scale = Nat.log2 (scaled / den) - 52) :
    roundHalfEven scaled (den * 2 ^ scale) + scale * scaleSize < infinity := by
  rw [halfPlace_eq] at hbits
  have hquotient : scaled / den / 2 ^ scale < 2 ^ 53 := by
    refine (Nat.div_lt_iff_lt_mul (Nat.two_pow_pos scale)).mpr ?_
    rw [← Nat.pow_add]
    exact lt_two_pow_of_log2_lt (by omega)
  have hround := roundHalfEven_le scaled (den * 2 ^ scale)
  rw [div_scaled] at hround
  unfold infinity scaleSize
  omega

theorem lt_bound_of_log2_lt (hden : 0 < den)
    (hbits : Nat.log2 (scaled / den) < halfPlace + 53) :
    scaled < (2 ^ 54 - 1) * 2 ^ halfPlace * den := by
  have hquotient : scaled / den < 2 ^ 53 * 2 ^ halfPlace := by
    rw [← Nat.pow_add]
    exact lt_two_pow_of_log2_lt (by omega)
  refine Nat.lt_of_lt_of_le ((Nat.div_lt_iff_lt_mul hden).mp hquotient) ?_
  exact Nat.mul_le_mul_right den (Nat.mul_le_mul_right _ (by decide))

/-- With many bits the scale alone is past the range. -/
theorem infinity_le_rounded (hbits : halfPlace + 53 < Nat.log2 (scaled / den))
    (hscale : scale = Nat.log2 (scaled / den) - 52) :
    infinity ≤ roundHalfEven scaled (den * 2 ^ scale) + scale * scaleSize := by
  rw [halfPlace_eq] at hbits
  have hquotient : 2 ^ 52 ≤ scaled / den / 2 ^ scale := by
    refine (Nat.le_div_iff_mul_le (Nat.two_pow_pos scale)).mpr ?_
    rw [← Nat.pow_add]
    exact two_pow_le_of_le_log2 (by omega) (by omega)
  have hround := div_le_roundHalfEven scaled (den * 2 ^ scale)
  rw [div_scaled] at hround
  unfold infinity scaleSize
  omega

theorem bound_le_of_lt_log2 (hbits : halfPlace + 53 < Nat.log2 (scaled / den)) :
    (2 ^ 54 - 1) * 2 ^ halfPlace * den ≤ scaled := by
  have hquotient : 2 ^ 54 * 2 ^ halfPlace ≤ scaled / den := by
    rw [← Nat.pow_add]
    exact two_pow_le_of_le_log2 (by omega) (by omega)
  refine Nat.le_trans ?_ (Nat.div_mul_le_self scaled den)
  exact Nat.mul_le_mul_right den (Nat.le_trans (Nat.mul_le_mul_right _ (by decide)) hquotient)

/-- With as many bits as the largest double has, the rounded quotient decides: half way past the
largest significand it becomes a power of two, at which the range ends. -/
theorem infinity_le_rounded_iff (hden : 0 < den) (hscale : scale = halfPlace + 1) :
    infinity ≤ roundHalfEven scaled (den * 2 ^ scale) + scale * scaleSize ↔
      (2 ^ 54 - 1) * 2 ^ halfPlace * den ≤ scaled := by
  have hpos : 0 < den * 2 ^ scale := Nat.mul_pos hden (Nat.two_pow_pos scale)
  have hlast : infinity ≤ roundHalfEven scaled (den * 2 ^ scale) + scale * scaleSize ↔
      2 ^ 53 - 1 < roundHalfEven scaled (den * 2 ^ scale) := by
    rw [halfPlace_eq] at hscale
    unfold infinity scaleSize
    omega
  have htwice : (2 * (2 ^ 53 - 1) + 1) * (den * 2 ^ scale) =
      2 * ((2 ^ 54 - 1) * 2 ^ halfPlace * den) := by
    rw [hscale, Nat.pow_succ]
    ring
  rw [hlast, lt_roundHalfEven_iff hpos (by decide), htwice]
  exact Nat.mul_le_mul_left_iff (by decide)

/-- **A fraction is rounded out of the range** from the bound on, which itself is out of it. -/
theorem nearest_eq_infinity_iff (hden : 0 < den) :
    nearest num den = infinity ↔ overflowBound * den ≤ num := by
  have hbound : overflowBound * den ≤ num ↔
      (2 ^ 54 - 1) * 2 ^ halfPlace * den ≤ num * unitsOfOne := by
    rw [← overflowBound_mul, Nat.mul_right_comm]
    exact (Nat.mul_le_mul_right_iff unitsOfOne_pos).symm
  rw [hbound, nearest, min_eq_left_iff]
  generalize num * unitsOfOne = scaled
  rcases Nat.lt_trichotomy (Nat.log2 (scaled / den)) (halfPlace + 53) with hfew | heq | hmany
  · exact iff_of_false (Nat.not_le.mpr (rounded_lt_infinity hfew rfl))
      (Nat.not_le.mpr (lt_bound_of_log2_lt hden hfew))
  · exact infinity_le_rounded_iff hden (by omega)
  · exact iff_of_true (infinity_le_rounded hmany rfl) (bound_le_of_lt_log2 hmany)

/-! ## Decimal fractions -/

theorem isFinite_eq_false_iff {x : Binary64} (h : x.code ≤ infinity) :
    x.isFinite = false ↔ x.code = infinity := by
  rw [isFinite, decide_eq_false_iff_not]
  omega

/-- **A decimal fraction is out of the range** from the bound on. -/
theorem ofDecimal_isFinite_iff (negative : Bool) (digits : Nat) (exponent : Int) :
    (ofDecimal negative digits exponent).isFinite = false ↔
      (overflowBound : Rat) ≤ digits * 10 ^ exponent := by
  cases exponent with
  | ofNat e =>
    have hcast : (digits : Rat) * 10 ^ Int.ofNat e = (digits * Nat.pow 10 e : Nat) := by
      rw [Int.ofNat_eq_natCast, zpow_natCast, Nat.cast_mul, Nat.pow_eq, Nat.cast_pow,
        Nat.cast_ofNat]
    rw [isFinite_eq_false_iff (nearest_le_infinity _ _), hcast, Nat.cast_le]
    exact (nearest_eq_infinity_iff Nat.one_pos).trans (by rw [Nat.mul_one])
  | negSucc e =>
    have hpos : (0 : Rat) < 10 ^ (e + 1) := by positivity
    rw [isFinite_eq_false_iff (nearest_le_infinity _ _), zpow_negSucc, le_mul_inv_iff₀ hpos]
    refine (nearest_eq_infinity_iff (Nat.pow_pos (by decide))).trans ?_
    rw [← Nat.cast_le (α := Rat), Nat.cast_mul, Nat.cast_pow, Nat.cast_ofNat]

end Binary64

end JsonLines
