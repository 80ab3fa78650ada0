/-
JsonLines.Number.Shortest — the shortest decimal that reads back as a given double.

A decimal reads back as a double when it lies in the interval of the numbers that round to it; the
ends of the interval belong to it when the significand is even. `Shortest.decimal` takes the
coarsest power of ten with a multiple in that interval, and of two such multiples the closer one.
`Binary64.render` writes it: positionally from 0.00001 up to below 10^16, otherwise with one digit
before the point and a signed exponent.
-/
import JsonLines.Number.Binary64

namespace JsonLines

namespace Shortest

/-- The numbers that round to a double, as multiples of a quarter of the unit `2^-1074`. -/
structure Interval where
  low : Nat
  value : Nat
  high : Nat
  closed : Bool
deriving Repr

/-- The interval of a finite code: half a last place on both sides, half of that below a power of
two. -/
def Interval.ofCode (code : Nat) : Interval :=
  let step := Nat.pow 2 (Binary64.scale code)
  let significand := Binary64.significand code
  { low := 4 * Binary64.units code -
      (if significand = Binary64.scaleSize ∧ 1 < step then step else 2 * step)
    value := 4 * Binary64.units code
    high := 4 * Binary64.units code + 2 * step
    closed := significand % 2 = 0 }

/-- The fraction `num / den` lies in the interval. -/
def Interval.contains (i : Interval) (num den : Nat) : Bool :=
  if i.closed then i.low * den ≤ num && num ≤ i.high * den
  else i.low * den < num && num < i.high * den

/-- The multiple of `10^exponent` in the interval that is closest to its value, if there is one. -/
def onGrid (i : Interval) (exponent : Int) : Option Nat :=
  -- the grid step is num / den of the interval's units
  let (num, den) := match exponent with
    | .ofNat e => (Nat.pow 10 e * (4 * Binary64.unitsOfOne), 1)
    | .negSucc e => (4 * Binary64.unitsOfOne, Nat.pow 10 (e + 1))
  let below := i.value * den / num
  let closer := roundHalfEven (i.value * den) num
  let other := if closer = below then below + 1 else below
  if i.contains (closer * num) den then some closer
  else if i.contains (other * num) den then some other
  else none

/-- A power of ten above the magnitude of a code. -/
def powerAbove (code : Nat) : Int :=
  let whole := Binary64.units code / Binary64.unitsOfOne
  if whole = 0 then
    2 - ((Nat.toDigits 10 (Binary64.unitsOfOne / Binary64.units code)).length : Int)
  else ((Nat.toDigits 10 whole).length : Int)

/-- The digits and the power of ten of the shortest decimal for a positive finite code. -/
def decimal (code : Nat) : Nat × Int :=
  let interval := Interval.ofCode code
  let top := powerAbove code
  let hit := (List.range 20).findSome? fun (i : Nat) =>
    (onGrid interval (top - i)).map fun digits => (digits, top - (i : Int))
  hit.getD (0, 0)

end Shortest

namespace Binary64

/-- Digits with a point after the first `place` of them. -/
private def pointed (digits : List Char) (place : Nat) : List Char :=
  digits.take place ++ '.' :: digits.drop place

/-- The text of a magnitude. -/
def renderCode (code : Nat) : List Char :=
  if code = 0 then ['0', '.', '0']
  else
    let (n, exponent) := Shortest.decimal code
    let digits := Nat.toDigits 10 n
    let top : Int := exponent + (digits.length : Int) - 1
    if -5 ≤ top ∧ top < 16 then
      if 0 ≤ exponent then digits ++ List.replicate exponent.toNat '0' ++ ['.', '0']
      else if 0 ≤ top then pointed digits (top.toNat + 1)
      else '0' :: '.' :: (List.replicate (-top - 1).toNat '0' ++ digits)
    else
      (if digits.length = 1 then digits else pointed digits 1) ++ 'e' ::
        (if top < 0 then '-' else '+') :: Nat.toDigits 10 top.natAbs

/-- The text of a finite double. -/
def render (x : Binary64) : String :=
  String.ofList (if x.negative then '-' :: renderCode x.code else renderCode x.code)

end Binary64

end JsonLines
