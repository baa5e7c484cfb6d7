import FrontEnd.Binary64

/-!
# Reading decimal numerals

`Binary64.ofNumeral?` reads a numeral such as `1.5`, `2e3` or `0.1E-7`: digits, then maybe a point and digits, then
maybe a letter, a sign and digits. The value is the nearest number of the format, if it is in range.
-/

namespace FrontEnd.Binary64

/-- The digits behind a point at the front of `t`, and what follows them. -/
def fractionDigits : Text → Text × Text
  | '.' :: t => (t.takeWhile Char.isDigit, t.dropWhile Char.isDigit)
  | t => ([], t)

/-- The value of an exponent part, 0 when there is none. -/
def exponentValue : Text → Int
  | [] => 0
  | _ :: '-' :: digits => -Text.digitsValue digits
  | _ :: '+' :: digits => Text.digitsValue digits
  | _ :: digits => Text.digitsValue digits

/-- The number that a numeral stands for, if it is in range. -/
def ofNumeral? (t : Text) : Option Binary64 :=
  let whole := t.takeWhile Char.isDigit
  let (fraction, rest) := fractionDigits (t.dropWhile Char.isDigit)
  ofDecimal? (Text.digitsValue (whole ++ fraction)) (exponentValue rest - fraction.length)

end FrontEnd.Binary64
