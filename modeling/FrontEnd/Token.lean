import FrontEnd.Location
import FrontEnd.Operator
import FrontEnd.Ty

/-!
# Tokens

* `TokenKind` : what a token is; the operators are one family of kinds;
* `TokenKind.name` : the name of a kind in token dumps;
* `TokenKind.operator?`, `TokenKind.isTerminator` : the operator a kind spells, and the kinds that end an expression
  or a list without belonging to it;
* `Token` : a kind, the text it was read from and the place of its first byte.
-/

namespace FrontEnd

/-- The kinds of tokens. -/
inductive TokenKind where
  | endOfInput
  | ifWord | elseWord | whileWord | forWord | letWord | funWord
  | operator (op : Operator)
  | leftParen | rightParen | leftBrace | rightBrace | leftBracket | rightBracket
  | comma | semicolon | colon
  | identifier | integer | decimal | boolean | character | string | typeName
  | unknown
deriving DecidableEq, Inhabited

namespace TokenKind

/-- The name of the kind of an operator's token. -/
def operatorName : Operator → Text
  | .add => "Plus"
  | .subtract => "Minus"
  | .multiply => "Star"
  | .divide => "Slash"
  | .modulo => "Percent"
  | .less => "Lt"
  | .greater => "Gt"
  | .lessEq => "Le"
  | .greaterEq => "Ge"
  | .equal => "EqEq"
  | .notEqual => "NotEq"
  | .and => "AndAnd"
  | .or => "OrOr"
  | .not => "Bang"
  | .assign => "Equal"
  | .addAssign => "PlusEqual"
  | .subtractAssign => "MinusEqual"

/-- The name of a kind in token dumps. -/
def name : TokenKind → Text
  | endOfInput => "End"
  | ifWord => "If"
  | elseWord => "Else"
  | whileWord => "While"
  | forWord => "For"
  | letWord => "Let"
  | funWord => "Fun"
  | operator op => operatorName op
  | leftParen => "LParen"
  | rightParen => "RParen"
  | leftBrace => "LBrace"
  | rightBrace => "RBrace"
  | leftBracket => "LBracket"
  | rightBracket => "RBracket"
  | comma => "Comma"
  | semicolon => "Semicolon"
  | colon => "Colon"
  | identifier => "Ident"
  | integer => "Int"
  | decimal => "Float"
  | boolean => "BoolLit"
  | character => "Char"
  | string => "String"
  | typeName => "TypeIdent"
  | unknown => "Unknown"

/-- The operator that a token of this kind spells. -/
def operator? : TokenKind → Option Operator
  | operator op => some op
  | _ => none

/-- The kinds that end an expression, a list of arguments or a run of statements. -/
def isTerminator : TokenKind → Bool
  | semicolon | rightParen | rightBrace | rightBracket | elseWord | comma | endOfInput => true
  | _ => false

theorem operator?_eq_some_iff {k : TokenKind} {op : Operator} : k.operator? = some op ↔ k = operator op := by
  cases k <;> simp [operator?]

end TokenKind

/-- A token: its kind, its text and the place of its first byte. -/
structure Token where
  kind : TokenKind
  text : Text
  loc : Location
deriving DecidableEq, Inhabited

end FrontEnd
