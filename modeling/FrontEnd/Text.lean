/-!
# Text as a sequence of bytes

* `Text` : a list of characters, one for each byte (the character of that code, below 256), so that lengths and
  columns count bytes; a string literal stands for its characters;
* `Text.ofNat`, `Text.ofInt` : decimal numerals;
* `Text.lowered` : letters `A` to `Z` made small;
* `Text.upToNul` : what a reader that stops at the first zero byte sees;
* `Text.joined`, `Text.ofLines` : pieces put together with a separator, or each on a line of its own.
-/

namespace FrontEnd

/-- A byte string, each byte held as the character of its code. -/
abbrev Text := List Char

/-- A string literal stands for the list of its characters. -/
instance : Coe String Text := ⟨String.toList⟩

namespace Text

/-- The decimal numeral of `n`, without leading zeros. -/
def ofNat (n : Nat) : Text := Nat.toDigits 10 n

/-- The decimal numeral of `n`, with a leading minus when it is negative. -/
def ofInt : Int → Text
  | .ofNat n => ofNat n
  | .negSucc n => '-' :: ofNat (n + 1)

/-- The value of a run of decimal digits. -/
def digitsValue (digits : Text) : Nat := digits.foldl (fun n c => 10 * n + (c.toNat - '0'.toNat)) 0

/-- `t` with the letters `A` to `Z` made small; every other byte is kept. -/
def lowered (t : Text) : Text := t.map Char.toLower

/-- The bytes of `t` before its first zero byte. -/
def upToNul (t : Text) : Text := t.takeWhile (· != '\x00')

/-- The pieces in order, with `sep` between neighbours. -/
def joined (sep : Text) (pieces : List Text) : Text := sep.intercalate pieces

/-- Every line followed by a line feed. -/
def ofLines (lines : List Text) : Text := lines.flatMap (· ++ ['\n'])

@[simp] theorem ofLines_nil : ofLines [] = [] := rfl

@[simp] theorem ofLines_cons (l : Text) (ls : List Text) : ofLines (l :: ls) = l ++ '\n' :: ofLines ls := by
  simp [ofLines]

@[simp] theorem ofLines_append (ls ms : List Text) : ofLines (ls ++ ms) = ofLines ls ++ ofLines ms := by
  simp [ofLines]

@[simp] theorem length_lowered (t : Text) : t.lowered.length = t.length := by
  simp [lowered]

theorem joined_singleton (sep a : Text) : joined sep [a] = a := by
  simp [joined, List.intercalate]

theorem joined_cons_cons (sep a b : Text) (rest : List Text) :
    joined sep (a :: b :: rest) = a ++ (sep ++ joined sep (b :: rest)) := by
  simp [joined, List.intercalate]

theorem isDigit_of_mem_ofNat {n : Nat} {c : Char} (h : c ∈ ofNat n) : c.isDigit :=
  Nat.isDigit_of_mem_toDigits (by decide) (by decide) h

theorem digitsValue_ofNat (n : Nat) : digitsValue (ofNat n) = n := by
  have h := Nat.ofDigitChars_ten_toDigits (n := n)
  rwa [Nat.ofDigitChars_eq_foldl] at h

end Text
end FrontEnd
