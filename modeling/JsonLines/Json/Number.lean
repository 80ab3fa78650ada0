/-
JsonLines.Json.Number — the numbers that a JSON value holds.

An integral literal within 64 bits stays an integer; negative zero and everything longer is a
double. Doubles are not rounded from the whole literal: digits are taken into a 64-bit significand
as long as it has room, the power of ten that is left over is applied to the double of the
significand by one multiplication or division, and each of the two steps rounds. A literal that is
too large for a double is a fault right after it.
-/
import JsonLines.Json.Numeral
import JsonLines.Number.Shortest

namespace JsonLines.Json

/-- A number of a JSON value. -/
inductive Number where
  | integer (value : Int)
  | real (value : Binary64)
deriving DecidableEq, Repr

namespace Number

/-- The numbers a significand may reach. -/
def significandLimit : Nat := Word.modulus

/-- The significand after as many digits of the whole part as it has room for, and the number of
digits left out, each a factor of ten. -/
def takeWhole (significand : Nat) : List Char → Nat × Nat
  | [] => (significand, 0)
  | digit :: digits =>
    let next := significand * 10 + Numeral.digitValue digit
    if next < significandLimit then takeWhole next digits else (significand, digits.length + 1)

/-- The significand after as many digits of the fraction as it has room for, and their number. -/
def takeFraction (significand : Nat) : List Char → Nat × Nat
  | [] => (significand, 0)
  | digit :: digits =>
    let next := significand * 10 + Numeral.digitValue digit
    if next < significandLimit then
      let (final, taken) := takeFraction next digits
      (final, taken + 1)
    else (significand, 0)

/-- The power that exponent digits write, or the number of digits after which it passes 31 bits. -/
def readPower (power read : Nat) : List Char → Except Nat Nat
  | [] => .ok power
  | digit :: digits =>
    let next := power * 10 + Numeral.digitValue digit
    if next < Word.half32 then readPower next (read + 1) digits else .error (read + 1)

/-- The double closest to a power of ten. -/
def powerOfTen (power : Nat) : Nat := Binary64.nearest (Nat.pow 10 power) 1

/-- The code divided by a power of ten, in steps of at most 308 places. -/
def divideDown (code power : Nat) : Nat :=
  if power ≤ 308 then Binary64.divCode code (powerOfTen power)
  else if code = 0 then 0
  else divideDown (Binary64.divCode code (powerOfTen 308)) (power - 308)
termination_by power

/-- The code of a significand times a power of ten, none when it is not finite. -/
def scaled (significand : Nat) (power : Int) : Option Nat :=
  let code := Binary64.nearest significand 1
  match power with
  | .ofNat power =>
    if power ≤ 308 then
      let product := Binary64.mulCode code (powerOfTen power)
      if product < Binary64.infinity then some product else none
    else if code = 0 then some 0
    else none
  | .negSucc power => some (divideDown code (power + 1))

/-- The double of a numeral whose last byte stands before `stop`. -/
def readReal (stop : Nat) (n : Numeral) : Except Fault Binary64 :=
  let (significand, omitted) := takeWhole 0 n.whole
  let (significand, taken) := takeFraction significand (n.fraction.getD [])
  let finish (power : Int) : Except Fault Binary64 :=
    match scaled significand (omitted - taken + power) with
    | some code => .ok ⟨n.negative, code⟩
    | none => .error ⟨.numberOutOfRange, stop⟩
  match n.exponent with
  | none => finish 0
  | some exponent =>
    match readPower 0 0 exponent.digits with
    | .ok power => finish (if exponent.negative then -power else power)
    | .error read =>
      if significand = 0 ∨ exponent.negative then .ok ⟨n.negative, 0⟩
      else .error ⟨.numberOutOfRange, stop - exponent.digits.length + read⟩

/-- The number of a numeral whose last byte stands before `stop`. -/
def ofNumeral (stop : Nat) (n : Numeral) : Except Fault Number :=
  let magnitude := Numeral.ofDigits n.whole
  if n.isIntegral && !n.negative && magnitude < Word.modulus then .ok (.integer magnitude)
  else if n.isIntegral && n.negative && 0 < magnitude && magnitude ≤ Word.half then
    .ok (.integer (-magnitude))
  else
    match readReal stop n with
    | .ok x => .ok (.real x)
    | .error e => .error e

/-- The text of a number. -/
def render : Number → String
  | .integer n => toString n
  | .real x => x.render

end Number

end JsonLines.Json
