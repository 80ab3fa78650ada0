/-
JsonLines.Number.Binary64 — double-precision numbers, by exact arithmetic.

A double is a sign and a code: its 64-bit pattern less the sign bit. Codes order magnitudes, and
the codes below `infinity` are the finite ones. A code is read as `significand · 2^scale / 2^1074`,
and `nearest` rounds a fraction to the code of the closest magnitude, a tie going to the even one.
Because the codes of one scale continue those of the scale below, rounding up across a power of two
needs no case of its own.
-/
import JsonLines.Number.Word

namespace JsonLines

/-- A quotient of naturals rounded to the nearest integer, a half to the even neighbour. -/
def roundHalfEven (num den : Nat) : Nat :=
  let quotient := num / den
  let twice := 2 * (num % den)
  if twice < den then quotient
  else if den < twice then quotient + 1
  else quotient + quotient % 2

/-- A double: its sign, and its bit pattern without the sign bit. -/
structure Binary64 where
  negative : Bool
  code : Nat
deriving DecidableEq, Repr, Inhabited

namespace Binary64

/-- The number of codes of one scale, and the least significand of all but the lowest scale: two to
the power of 52. -/
def scaleSize : Nat := 4503599627370496

/-- The magnitude of one, in units of `2^-1074`. -/
def unitsOfOne : Nat := Nat.pow 2 1074

/-- The code past the largest finite one. -/
def infinity : Nat := 2047 * scaleSize

/-- The code of a magnitude below the double range is finite. -/
def isFinite (x : Binary64) : Bool := x.code < infinity

/-- The bit pattern, sign bit included. -/
def toBits (x : Binary64) : Nat := (if x.negative then Word.half else 0) + x.code

/-- The number of times the unit `2^-1074` is doubled for the last place of a code. -/
def scale (code : Nat) : Nat := code / scaleSize - 1

/-- The integer that counts the last places in the magnitude of a code. -/
def significand (code : Nat) : Nat :=
  if code < scaleSize then code else scaleSize + code % scaleSize

/-- The magnitude of a code, in units of `2^-1074`. -/
def units (code : Nat) : Nat := significand code * Nat.pow 2 (scale code)

/-- The code of the magnitude closest to `num / den`, at most `infinity`. -/
def nearest (num den : Nat) : Nat :=
  let scaled := num * unitsOfOne
  let scale := Nat.log2 (scaled / den) - 52
  min infinity (roundHalfEven scaled (den * Nat.pow 2 scale) + scale * scaleSize)

/-- The double closest to a natural number. -/
def ofNat (n : Nat) : Binary64 := ⟨false, nearest n 1⟩

/-- The double closest to `digits · 10^exponent`, with a sign. -/
def ofDecimal (negative : Bool) (digits : Nat) (exponent : Int) : Binary64 :=
  match exponent with
  | .ofNat e => ⟨negative, nearest (digits * Nat.pow 10 e) 1⟩
  | .negSucc e => ⟨negative, nearest digits (Nat.pow 10 (e + 1))⟩

/-- The double closest to the product of two codes. -/
def mulCode (a b : Nat) : Nat := nearest (units a * units b) (unitsOfOne * unitsOfOne)

/-- The double closest to the quotient of two codes. -/
def divCode (a b : Nat) : Nat := nearest (units a) (units b)

/-- The least natural number that is no smaller than the magnitude of a code. -/
def ceilCode (code : Nat) : Nat := (units code + (unitsOfOne - 1)) / unitsOfOne

end Binary64

end JsonLines
