import FrontEnd.Binary64

/-!
# Writing binary64 numbers

* `Binary64.Layout` : how a number is laid out as text: its significant digits, when it is written with an exponent,
  and the names of what is no finite number;
* `Binary64.dumpLayout` : the layout of the tree dumps;
* `Binary64.nearestDigits` : the nearest decimal with a given number of digits;
* `Binary64.text` : a number as text.
-/

namespace FrontEnd.Binary64

/-- How numbers are laid out as text. -/
structure Layout where
  /-- Digits kept, zeros at the end of a fraction aside. -/
  significant : Nat
  /-- The least decimal exponent that is written without an exponent part. -/
  leastPositional : Int
  /-- The least number of digits of an exponent part. -/
  exponentDigits : Nat
  infinity : Text
  notANumber : Text

/-- Tree dumps keep six digits and write an exponent below `0.0001` and from a million on. -/
def dumpLayout : Layout where
  significant := 6
  leastPositional := -4
  exponentDigits := 2
  infinity := "inf"
  notANumber := "nan"

/-- For `num / den` positive, `(n, x)` such that `n * 10 ^ (x + 1 - count)` is the nearest decimal of `count` digits,
a half going to even `n`. -/
def nearestDigits (count num den : Nat) : Nat × Int :=
  let guess : Int := decimalDigits num - decimalDigits den
  let (n, d) := scaleRatio 10 num den (-guess)
  let x := if n < d then guess - 1 else guess
  let (n, d) := scaleRatio 10 num den (count - 1 - x)
  let m := roundHalfEven n d
  if m = Nat.pow 10 count then (Nat.pow 10 (count - 1), x + 1) else (m, x)

/-- A fraction without the zeros at its end, after a point, or nothing. -/
def fractionText (digits : Text) : Text :=
  match (digits.reverse.dropWhile (· == '0')).reverse with
  | [] => []
  | kept => '.' :: kept

/-- An exponent part: its letter, its sign and at least `width` digits. -/
def exponentText (width : Nat) (x : Int) : Text :=
  let digits := Text.ofNat x.natAbs
  'e' :: (if x < 0 then '-' else '+') :: List.replicate (width - digits.length) '0' ++ digits

/-- The text of a positive magnitude. -/
def magnitudeText (layout : Layout) (num den : Nat) : Text :=
  let (n, x) := nearestDigits layout.significant num den
  let digits := Text.ofNat n
  if layout.leastPositional ≤ x ∧ x < layout.significant then
    if 0 ≤ x then
      digits.take (x.toNat + 1) ++ fractionText (digits.drop (x.toNat + 1))
    else
      '0' :: fractionText (List.replicate ((-x).toNat - 1) '0' ++ digits)
  else
    digits.take 1 ++ fractionText (digits.drop 1) ++ exponentText layout.exponentDigits x

/-- The text of a number. A sign is written before a negative zero, infinity or NaN as well. -/
def text (layout : Layout) (x : Binary64) : Text :=
  let magnitude : Text :=
    if x.isNaN then layout.notANumber
    else if x.isInfinite then layout.infinity
    else if x.magnitudeBits = 0 then "0"
    else magnitudeText layout x.ratio.1 x.ratio.2
  if x.isNegative then '-' :: magnitude else magnitude

end FrontEnd.Binary64
