import FrontEnd.Binary64.Numeral
import FrontEnd.Fault
import FrontEnd.Syntax

/-!
# Literals in source text

* `Quoted.unescape` : what stands between quotes, with escapes replaced by what they stand for;
* `Literal.ofToken` : the value of a literal token.

Whole numbers go up to `2 ^ 63 - 1`; a decimal has to be in the range of its format, and a character literal has to
hold one character.
-/

namespace FrontEnd

namespace Quoted

/-- What an escape stands for, by the character after the backslash. -/
def escaped? : Char → Option Char
  | 'n' => some '\n'
  | 't' => some '\t'
  | 'r' => some '\r'
  | '0' => some '\x00'
  | '\\' => some '\\'
  | '\'' => some '\''
  | '"' => some '"'
  | _ => none

/-- Why a quoted text cannot be read. -/
inductive Problem where
  | unterminated
  | unknownEscape (c : Char)
deriving DecidableEq

/-- The text in front of the closing `quote`, which has to be the last character. -/
def unescape (quote : Char) : Text → Except Problem Text
  | [] => .error .unterminated
  | c :: cs =>
    if c = quote then (if cs = [] then .ok [] else .error .unterminated)
    else if c = '\\' then
      match cs with
      | [] => .error .unterminated
      | e :: rest =>
        match escaped? e with
        | none => .error (.unknownEscape e)
        | some v => (v :: ·) <$> unescape quote rest
    else (c :: ·) <$> unescape quote cs

/-- The text that a quoted literal stands for. -/
def decode (literal : Text) : Except SyntaxError Text :=
  let contents : Except Problem Text :=
    match literal with
    | [] => .error .unterminated
    | quote :: body => unescape quote body
  contents.mapError fun
    | .unterminated => .unterminated literal
    | .unknownEscape c => .unknownEscape c

end Quoted

/-- The greatest value of a whole number. -/
def Literal.greatestInt : Nat := 9223372036854775807

/-- The value of a literal token. -/
def Literal.ofToken (token : Token) : Except SyntaxError Literal :=
  match token.kind with
  | .integer =>
    let value := Text.digitsValue token.text
    if value ≤ greatestInt then .ok (.int value) else .error (.integerOutOfRange token.text)
  | .decimal =>
    match Binary64.ofNumeral? token.text with
    | some value => .ok (.float value)
    | none => .error (.decimalOutOfRange token.text)
  | .boolean => .ok (.bool (token.text == "true"))
  | .character => do
    match ← Quoted.decode token.text with
    | [c] => return .char c
    | _ => throw (.characterLength token.text)
  | .string => do return .str (← Quoted.decode token.text)
  | _ => .error .expectedLiteral

end FrontEnd
