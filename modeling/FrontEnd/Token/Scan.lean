import FrontEnd.Text.Lines
import FrontEnd.Token

/-!
# Scanning

A source is scanned line by line. Blanks, tabs and comments separate tokens; the only state that passes from one line
to the next is whether a block comment is open.

* `lexeme` : the kind and the extent of the token at the front of a text, by the longest match;
* `scanLine`, `scanLines` : the tokens of one line, and of the lines of a source;
* `Source.tokens`, `Source.endLocation` : the tokens of a named text, and the place just past its last byte.

A quoted literal that finds no closing quote runs to the end of its line, and a byte that starts no token is a token
by itself; both are left for the parser to refuse.
-/

namespace FrontEnd

/-- A text with the name that its locations carry. -/
structure Source where
  text : Text
  name : Text
deriving DecidableEq, Inhabited

namespace Scan

/-! ## Lexemes -/

/-- Whether `c` can start an identifier: an ASCII letter or an underscore. -/
def isIdentStart (c : Char) : Bool := c.isAlpha || c == '_'

/-- Whether `c` can continue an identifier. -/
def isIdentRest (c : Char) : Bool := c.isAlphanum || c == '_'

/-- The symbol at the front of `c :: cs` and its length past `c`, two-character symbols before their first halves. -/
def symbol? (c : Char) (cs : Text) : Option (TokenKind × Nat) :=
  match c, cs with
  | '+', '=' :: _ => some (.operator .addAssign, 1)
  | '-', '=' :: _ => some (.operator .subtractAssign, 1)
  | '<', '=' :: _ => some (.operator .lessEq, 1)
  | '>', '=' :: _ => some (.operator .greaterEq, 1)
  | '!', '=' :: _ => some (.operator .notEqual, 1)
  | '=', '=' :: _ => some (.operator .equal, 1)
  | '&', '&' :: _ => some (.operator .and, 1)
  | '|', '|' :: _ => some (.operator .or, 1)
  | '+', _ => some (.operator .add, 0)
  | '-', _ => some (.operator .subtract, 0)
  | '*', _ => some (.operator .multiply, 0)
  | '/', _ => some (.operator .divide, 0)
  | '%', _ => some (.operator .modulo, 0)
  | '<', _ => some (.operator .less, 0)
  | '>', _ => some (.operator .greater, 0)
  | '!', _ => some (.operator .not, 0)
  | '=', _ => some (.operator .assign, 0)
  | '(', _ => some (.leftParen, 0)
  | ')', _ => some (.rightParen, 0)
  | '[', _ => some (.leftBracket, 0)
  | ']', _ => some (.rightBracket, 0)
  | '{', _ => some (.leftBrace, 0)
  | '}', _ => some (.rightBrace, 0)
  | ':', _ => some (.colon, 0)
  | ',', _ => some (.comma, 0)
  | ';', _ => some (.semicolon, 0)
  | _, _ => none

/-- The length of a quoted literal past its opening quote: up to its closing quote, where a backslash takes the next
character with it, or all of `cs`. -/
def quotedLength (quote : Char) : Text → Nat
  | [] => 0
  | ['\\'] => 1
  | '\\' :: _ :: cs => 2 + quotedLength quote cs
  | c :: cs => if c = quote then 1 else 1 + quotedLength quote cs

/-- The number of digits at the front of `cs`. -/
def digitsLength (cs : Text) : Nat := (cs.takeWhile Char.isDigit).length

/-- The length of a fraction at the front of `cs`, a point and at least one digit, or 0. -/
def fractionLength : Text → Nat
  | '.' :: cs => if digitsLength cs = 0 then 0 else 1 + digitsLength cs
  | _ => 0

/-- The length of a sign at the front of `cs`. -/
def signLength : Text → Nat
  | '+' :: _ => 1
  | '-' :: _ => 1
  | _ => 0

/-- The length of an exponent at the front of `cs`, the letter, an optional sign and at least one digit, or 0. -/
def exponentLength : Text → Nat
  | [] => 0
  | c :: cs =>
    let sign := signLength cs
    let digits := digitsLength (cs.drop sign)
    if (c = 'e' ∨ c = 'E') ∧ digits ≠ 0 then 1 + sign + digits else 0

/-- The kind and the length of a number past its first digit. A fraction or an exponent makes it a decimal. -/
def number (cs : Text) : TokenKind × Nat :=
  let whole := digitsLength cs
  let fraction := fractionLength (cs.drop whole)
  let exponent := exponentLength (cs.drop (whole + fraction))
  (if fraction + exponent = 0 then .integer else .decimal, whole + fraction + exponent)

/-- The words with a kind of their own. -/
def reservedWords : List (Text × TokenKind) :=
  [("if", .ifWord), ("else", .elseWord), ("while", .whileWord), ("for", .forWord), ("let", .letWord),
    ("fun", .funWord), ("true", .boolean), ("false", .boolean), ("int", .typeName), ("float", .typeName),
    ("bool", .typeName), ("char", .typeName), ("string", .typeName), ("unit", .typeName)]

/-- The kind of a word. -/
def wordKind (word : Text) : TokenKind := (reservedWords.lookup word).getD .identifier

/-- The kind of the token at the front of `c :: cs`, and how many characters of `cs` belong to it. -/
def lexeme (c : Char) (cs : Text) : TokenKind × Nat :=
  match symbol? c cs with
  | some found => found
  | none =>
    if c = '"' then (.string, quotedLength '"' cs)
    else if c = '\'' then (.character, quotedLength '\'' cs)
    else if c.isDigit then number cs
    else if isIdentStart c then
      let rest := cs.takeWhile isIdentRest
      (wordKind (c :: rest), rest.length)
    else (.unknown, 0)

/-! ## Lines -/

/-- The tokens of a line from column `col` on, where `cs` stands, and whether a block comment is open at its end.
`inComment` says whether one is open in front of `cs`, and `place` makes a location of a column. -/
def scanLine (place : Nat → Location) (inComment : Bool) (col : Nat) (cs : Text) : List Token × Bool :=
  match inComment, cs with
  | _, [] => ([], inComment)
  | true, '*' :: '/' :: rest => scanLine place false (col + 2) rest
  | true, _ :: rest => scanLine place true (col + 1) rest
  | false, '/' :: '/' :: _ => ([], false)
  | false, '/' :: '*' :: rest => scanLine place true (col + 2) rest
  | false, c :: rest =>
    if c = ' ' ∨ c = '\t' then scanLine place false (col + 1) rest
    else
      let (kind, more) := lexeme c rest
      let (tokens, stillOpen) := scanLine place false (col + 1 + more) (rest.drop more)
      (⟨kind, c :: rest.take more, place col⟩ :: tokens, stillOpen)
termination_by cs.length

/-- The tokens of the lines of a file, the first of which has number `number`. -/
def scanLines (file : Text) (number : Nat) (inComment : Bool) : List Text → List Token
  | [] => []
  | line :: lines =>
    let (tokens, stillOpen) := scanLine (fun col => ⟨file, number, col⟩) inComment 1 line
    tokens ++ scanLines file (number + 1) stillOpen lines

end Scan

namespace Source

/-- The tokens of a source, without the one that marks its end. -/
def tokens (s : Source) : List Token := Scan.scanLines s.name 1 false s.text.lines

/-- The place just past the last byte of a source. -/
def endLocation (s : Source) : Location :=
  match s.text.lines.getLast? with
  | none => ⟨s.name, 1, 1⟩
  | some line => ⟨s.name, s.text.lines.length, line.length + 1⟩

end Source
end FrontEnd
