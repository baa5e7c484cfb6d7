import FrontEnd.Text

/-!
# Numbers in the 64-bit binary format

All arithmetic is exact, on natural numbers and integers, and is rounded once.

* `Binary64` : a number as its 64 bits; `Binary64.isNegative`, `Binary64.exponentField`, `Binary64.fractionField` : the
  parts of these; `Binary64.ratio` : the magnitude of a finite number as a quotient;
* `roundHalfEven` : a quotient to the nearest integer, a half to the even neighbour;
* `Binary64.normalize` : the nearest product of a 53-bit integer and a power of two, of any exponent;
* `Binary64.ofInt`, `Binary64.ofDecimal?` : the nearest number to an integer, and to a decimal in range; which decimals
  below the least normal number are in range is up to `Binary64.wholeUnits?`;
* `Binary64.lt` : the order of the numbers, in which NaN takes no part.
-/

namespace FrontEnd

/-- The integer nearest to `num / den`; a half goes to the even neighbour. -/
def roundHalfEven (num den : Nat) : Nat :=
  let rest := num % den
  if 2 * rest < den ∨ (2 * rest = den ∧ num / den % 2 = 0) then num / den else num / den + 1

/-- The quotient `num / den` times `base` to the power `exponent`, as a quotient. -/
def scaleRatio (base num den : Nat) (exponent : Int) : Nat × Nat :=
  if 0 ≤ exponent then (num * Nat.pow base exponent.toNat, den) else (num, den * Nat.pow base (-exponent).toNat)

/-- A number in the 64-bit format, as its bits: a sign, 11 bits of exponent and 52 of fraction. -/
structure Binary64 where
  bits : UInt64
deriving DecidableEq, Inhabited

namespace Binary64

/-! ## Reading the bits -/

/-- The weight of the sign bit. -/
def signWeight : Nat := Nat.pow 2 63

/-- The weight of the lowest bit of the exponent field, which is that of the leading bit of a normal number as well. -/
def leadWeight : Nat := Nat.pow 2 52

/-- Whether the sign bit is set. -/
def isNegative (x : Binary64) : Bool := signWeight ≤ x.bits.toNat

/-- The bits without the sign. -/
def magnitudeBits (x : Binary64) : Nat := x.bits.toNat % signWeight

/-- The exponent field. -/
def exponentField (x : Binary64) : Nat := x.magnitudeBits / leadWeight

/-- The fraction field. -/
def fractionField (x : Binary64) : Nat := x.magnitudeBits % leadWeight

/-- Whether the bits stand for no number. -/
def isNaN (x : Binary64) : Bool := x.exponentField == 2047 && x.fractionField != 0

/-- Whether the bits stand for an infinity. -/
def isInfinite (x : Binary64) : Bool := x.exponentField == 2047 && x.fractionField == 0

/-- The magnitude of a finite number as a quotient of integers. -/
def ratio (x : Binary64) : Nat × Nat :=
  if x.exponentField = 0 then scaleRatio 2 x.fractionField 1 (-1074)
  else scaleRatio 2 (leadWeight + x.fractionField) 1 (x.exponentField - 1075)

/-- Position in the order of the numbers; both zeros have position 0. -/
def rank (x : Binary64) : Int := if x.isNegative then -x.magnitudeBits else x.magnitudeBits

/-- Whether `x` is less than `y`. -/
def lt (x y : Binary64) : Bool := !x.isNaN && !y.isNaN && x.rank < y.rank

/-! ## Rounding to the format -/

/-- The number 0. -/
def zero : Binary64 := ⟨0⟩

/-- The number 1. -/
def one : Binary64 := ⟨0x3FF0000000000000⟩

/-- `x` with the other sign. -/
def negate (x : Binary64) : Binary64 := ⟨x.bits ^^^ 0x8000000000000000⟩

/-- For `num / den` positive, `(m, e)` such that `m * 2 ^ e` is nearest to it, a half going to even `m`, where `m` has
53 bits and `e` is any integer. -/
def normalize (num den : Nat) : Nat × Int :=
  let guess : Int := num.log2 - den.log2 - 52
  let near := scaleRatio 2 num den (-guess)
  let e := if near.1 < near.2 * leadWeight then guess - 1 else guess
  let scaled := scaleRatio 2 num den (-e)
  let m := roundHalfEven scaled.1 scaled.2
  if m = 2 * leadWeight then (leadWeight, e + 1) else (m, e)

/-- The finite number of magnitude `m * 2 ^ e`, where `m` has 53 bits and the number is normal. -/
def ofNormal (m : Nat) (e : Int) : Binary64 := ⟨((e + 1075).toNat * leadWeight + (m - leadWeight)).toUInt64⟩

/-- The number nearest to `n`. -/
def ofInt (n : Int) : Binary64 :=
  if n = 0 then zero
  else
    let (m, e) := normalize n.natAbs 1
    if n < 0 then (ofNormal m e).negate else ofNormal m e

/-- How many units of `2 ^ -1074` make up `num / den`, which is below the least normal number. It has to be a whole
number of quarters of a unit; of these, which have at most 54 bits, the leading 53 bits are kept, and what is kept has
to be a whole number of units. -/
def wholeUnits? (num den : Nat) : Option Nat :=
  let scaled := num * Nat.pow 2 1076
  let quarters := scaled / den
  let kept := if 2 * leadWeight ≤ quarters then quarters - quarters % 2 else quarters
  if scaled % den = 0 ∧ kept % 4 = 0 then some (kept / 4) else none

/-- The number nearest to `num / den`, which is positive. It is out of range when it is too large; and when it is below
the least normal number, after rounding to 53 bits, and no whole number of units. -/
def ofRatio? (num den : Nat) : Option Binary64 :=
  let (m, e) := normalize num den
  if 971 < e then none
  else if -1074 ≤ e then some (ofNormal m e)
  else (wholeUnits? num den).map fun units => ⟨units.toUInt64⟩

/-- The number of digits of `n` in base ten. -/
def decimalDigits (n : Nat) : Nat := (Nat.toDigits 10 n).length

/-- The number nearest to `significand * 10 ^ exponent`, if that is in range. Exponents that are out of range for every
significand with as many digits are told without computing the power. -/
def ofDecimal? (significand : Nat) (exponent : Int) : Option Binary64 :=
  if significand = 0 then some zero
  else if 309 < decimalDigits significand + exponent then none
  else if decimalDigits significand + exponent < -330 then none
  else
    let (num, den) := scaleRatio 10 significand 1 exponent
    ofRatio? num den

end Binary64
end FrontEnd
