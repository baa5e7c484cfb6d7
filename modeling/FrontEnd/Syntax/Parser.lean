import FrontEnd.Syntax.Literal
import FrontEnd.Syntax.Loop
import FrontEnd.Syntax.Phrase
import FrontEnd.Syntax.Precedence

/-!
# Reading programs

* `Parse.program` : the program that a stream of tokens holds, as a block;
* `Parse.statements`, `Parse.statement`, `Parse.expression`, … : its phrases.

A statement is a block, a loop, a binding, a branch or an expression; `fun` declares a function. A `;` between
statements and a `,` between arguments may be left out. An expression runs to the next token that cannot belong to it,
and gets its structure from `Term.resolve`.

Each function reads from the stream it is given and says what is left; a failure says where reading stopped as well.
Reading ends, for every phrase is read with less of the stream in front of it, or at the same place as a part of a
larger kind of phrase: a run of statements starts with a statement, that with an expression, that with its terms, these
with a term, and that with an operand.
-/

namespace FrontEnd.Parse

/-! ## Phrases without expressions -/

/-- A type's name. -/
def typeName (s : TokenStream) : Parse Ty s.size := do
  let ⟨token, s₁, h₁⟩ ← s.expect .typeName
  match Ty.ofKeyword? token.text with
  | some t => return ⟨t, s₁, h₁⟩
  | none => throw ⟨.parse (.unknownType token.text) token.loc, s₁⟩

/-- A literal and its place. -/
def literal (s : TokenStream) : Parse (Location × Literal) s.size :=
  if h : s.kind = .endOfInput then s.refuse .expectedLiteral
  else
    let ⟨token, s₁, h₁⟩ := s.take h
    match Literal.ofToken token with
    | .ok value => .ok ⟨(token.loc, value), s₁, h₁⟩
    | .error cause => .error ⟨.parse cause token.loc, s₁⟩

/-- A bound of a range. -/
def bound (side : BoundSide) (s : TokenStream) : Parse Bound s.size := do
  let ⟨(loc, value), s₁, h₁⟩ ← literal s
  return ⟨← Parse.liftAt s₁ (Bound.ofLiteral side loc value), s₁, h₁⟩

/-- Parameters with their types, a comma between them and maybe one behind the last. -/
def parameters (s : TokenStream) : Parse (List (Text × Ty)) (s.size + 1) := do
  if s.kind = .identifier then
    let ⟨id, s₁, h₁⟩ ← s.expect .identifier
    let ⟨_, s₂, h₂⟩ ← s₁.expect .colon
    let ⟨t, s₃, h₃⟩ ← typeName s₂
    have := s₃.size_advance_le
    if s₃.kind = .comma then
      let ⟨params, s₄, h₄⟩ ← parameters s₃.advance
      return ⟨(id.text, t) :: params, s₄, by omega⟩
    else return ⟨[(id.text, t)], s₃, by omega⟩
  else return ⟨[], s, by omega⟩
termination_by s.size

/-- The type of a function's result, or none stated. -/
def returnType (s : TokenStream) : Parse Ty (s.size + 1) := do
  if s.kind = .colon then
    have := s.size_advance_le
    let ⟨t, s₁, h₁⟩ ← typeName s.advance
    return ⟨t, s₁, by omega⟩
  else return ⟨.any, s, by omega⟩

/-- What a function states about itself, up to the sign in front of its body. -/
def signature (s : TokenStream) : Parse Signature s.size := do
  let ⟨word, s₁, h₁⟩ ← s.expect .funWord
  let ⟨id, s₂, h₂⟩ ← s₁.expect .identifier
  let ⟨_, s₃, h₃⟩ ← s₂.expect .leftParen
  let ⟨params, s₄, h₄⟩ ← parameters s₃
  let ⟨_, s₅, h₅⟩ ← s₄.expect .rightParen
  let ⟨ret, s₆, h₆⟩ ← returnType s₅
  let ⟨_, s₇, h₇⟩ ← s₆.expect (.operator .assign)
  return ⟨⟨id.text, word.loc, params, ret⟩, s₇, by omega⟩

/-! ## Statements and expressions -/

mutual

/-- Functions and statements up to a token that ends them. A declaration is among the statements as well. -/
def statements (s : TokenStream) : Parse (List Function × List Expr) (s.size + 1) := do
  if s.kind.isTerminator then return ⟨([], []), s, by omega⟩
  else if s.kind = .funWord then
    let ⟨f, s₁, h₁⟩ ← function s
    have := s₁.size_skip_le .semicolon
    let ⟨(functions, rest), s₂, h₂⟩ ← statements (s₁.skip .semicolon)
    return ⟨(f :: functions, .funDecl f.signature.loc f.signature.name :: rest), s₂, by omega⟩
  else
    let ⟨e, s₁, h₁⟩ ← statement s
    have := s₁.size_skip_le .semicolon
    let ⟨(functions, rest), s₂, h₂⟩ ← statements (s₁.skip .semicolon)
    return ⟨(functions, e :: rest), s₂, by omega⟩
termination_by 7 * s.size + 6

/-- A statement. -/
def statement (s : TokenStream) : Parse Expr s.size :=
  match s.kind with
  | .leftBrace => block s
  | .whileWord => whileLoop s
  | .forWord => forLoop s
  | .letWord => letIn s
  | .ifWord => branch s
  | _ => expression s
termination_by 7 * s.size + 5

/-- A function with its body. -/
def function (s : TokenStream) : Parse Function s.size := do
  let ⟨signature, s₁, h₁⟩ ← signature s
  let ⟨body, s₂, h₂⟩ ← statement s₁
  return ⟨⟨signature, body⟩, s₂, by omega⟩
termination_by 7 * s.size

/-- A block in braces. -/
def block (s : TokenStream) : Parse Expr s.size := do
  let ⟨brace, s₁, h₁⟩ ← s.expect .leftBrace
  let ⟨(functions, body), s₂, h₂⟩ ← statements s₁
  let ⟨_, s₃, h₃⟩ ← s₂.expect .rightBrace
  return ⟨.block brace.loc functions body, s₃, by omega⟩
termination_by 7 * s.size

/-- A branch, with or without an alternative. -/
def branch (s : TokenStream) : Parse Expr s.size := do
  let ⟨word, s₁, h₁⟩ ← s.expect .ifWord
  let ⟨test, s₂, h₂⟩ ← parenthesized s₁
  let ⟨body, s₃, h₃⟩ ← statement s₂
  if s₃.kind = .elseWord then
    have := s₃.size_advance_le
    let ⟨orelse, s₄, h₄⟩ ← statement s₃.advance
    return ⟨.ifElse word.loc test body orelse, s₄, by omega⟩
  else return ⟨.ifThen word.loc test body, s₃, by omega⟩
termination_by 7 * s.size

/-- A loop that runs while its condition holds. -/
def whileLoop (s : TokenStream) : Parse Expr s.size := do
  let ⟨word, s₁, h₁⟩ ← s.expect .whileWord
  let ⟨test, s₂, h₂⟩ ← parenthesized s₁
  let ⟨body, s₃, h₃⟩ ← statement s₂
  return ⟨.whileLoop word.loc test body, s₃, by omega⟩
termination_by 7 * s.size

/-- A binding. -/
def letIn (s : TokenStream) : Parse Expr s.size := do
  let ⟨word, s₁, h₁⟩ ← s.expect .letWord
  let ⟨id, s₂, h₂⟩ ← s₁.expect .identifier
  let ⟨_, s₃, h₃⟩ ← s₂.expect (.operator .assign)
  let ⟨value, s₄, h₄⟩ ← expression s₃
  return ⟨.letIn word.loc id.text value, s₄, by omega⟩
termination_by 7 * s.size

/-- A loop over a range. It names a variable if a comma follows its first word. -/
def forLoop (s : TokenStream) : Parse Expr s.size := do
  let ⟨word, s₁, h₁⟩ ← s.expect .forWord
  let ⟨_, s₂, h₂⟩ ← s₁.expect .leftParen
  if s₂.kind = .identifier ∧ (s₂.token 1).kind = .comma then
    let ⟨e, s₃, h₃⟩ ← rangeLoop word.loc s₂
    return ⟨e, s₃, by omega⟩
  else
    let ⟨e, s₃, h₃⟩ ← countingLoop word.loc s₂
    return ⟨e, s₃, by omega⟩
termination_by 7 * s.size

/-- What follows the opening parenthesis of a loop at `loc` that names a variable and its bounds. -/
def rangeLoop (loc : Location) (s : TokenStream) : Parse Expr s.size := do
  let ⟨id, s₁, h₁⟩ ← s.expect .identifier
  let ⟨_, s₂, h₂⟩ ← s₁.expect .comma
  let ⟨start, s₃, h₃⟩ ← bound .start s₂
  let ⟨_, s₄, h₄⟩ ← s₃.expect .comma
  let ⟨stop, s₅, h₅⟩ ← bound .stop s₄
  let ⟨step, s₆, h₆⟩ ← stepAmount s₅
  let ⟨_, s₇, h₇⟩ ← s₆.expect .rightParen
  let ⟨body, s₈, h₈⟩ ← statement s₇
  return ⟨.rangeLoop loc id.text start stop step body, s₈, by omega⟩
termination_by 7 * s.size

/-- The amount that a range loop steps by, if one is given. -/
def stepAmount (s : TokenStream) : Parse (Option Expr) (s.size + 1) := do
  if h : s.kind = .comma then
    have := s.size_advance_lt (by simp [h])
    let ⟨e, s₁, h₁⟩ ← expression s.advance
    return ⟨some e, s₁, by omega⟩
  else return ⟨none, s, by omega⟩
termination_by 7 * s.size

/-- What follows the opening parenthesis of a loop at `loc` that states how often it runs. -/
def countingLoop (loc : Location) (s : TokenStream) : Parse Expr s.size := do
  let ⟨count, s₁, h₁⟩ ← expression s
  let ⟨_, s₂, h₂⟩ ← s₁.expect .rightParen
  let ⟨body, s₃, h₃⟩ ← statement s₂
  return ⟨.countingLoop loc count body, s₃, by omega⟩
termination_by 7 * s.size + 5

/-- An expression. -/
def expression (s : TokenStream) : Parse Expr s.size := do
  if s.kind.isTerminator then s.refuse .expectedExpression
  else
    let ⟨run, s₁, h₁⟩ ← terms false s
    return ⟨← Parse.liftAt s₁ (Term.resolve run), s₁, h₁⟩
termination_by 7 * s.size + 4

/-- The terms up to a token that ends the expression, at least one. `afterOperand` says whether an operand stands in
front of them. -/
def terms (afterOperand : Bool) (s : TokenStream) : Parse (List Term) s.size := do
  let ⟨first, s₁, h₁⟩ ← term afterOperand s
  if s₁.kind.isTerminator then return ⟨[first], s₁, h₁⟩
  else
    let ⟨rest, s₂, h₂⟩ ← terms first.isOperand s₁
    return ⟨first :: rest, s₂, by omega⟩
termination_by 7 * s.size + 3

/-- An operator or an operand; an operand cannot follow another. -/
def term (afterOperand : Bool) (s : TokenStream) : Parse Term s.size :=
  match h : s.kind.operator? with
  | some op => .ok ⟨.operator op s.loc, s.advance, s.size_advance_lt fun he => by simp [he, TokenKind.operator?] at h⟩
  | none =>
    if afterOperand then s.refuse .expectedOperator
    else do
      let ⟨e, s₁, h₁⟩ ← operand s
      return ⟨.operand e, s₁, h₁⟩
termination_by 7 * s.size + 2

/-- An operand. -/
def operand (s : TokenStream) : Parse Expr s.size :=
  match s.kind with
  | .leftBrace => block s
  | .ifWord => branch s
  | .leftParen => parenthesized s
  | .integer | .decimal | .boolean | .character | .string => do
    let ⟨(loc, value), s₁, h₁⟩ ← literal s
    return ⟨.literal loc value, s₁, h₁⟩
  | .identifier => nameOrCall s
  | _ => s.refuse .expectedTerm
termination_by 7 * s.size + 1

/-- An expression in parentheses. -/
def parenthesized (s : TokenStream) : Parse Expr s.size := do
  let ⟨_, s₁, h₁⟩ ← s.expect .leftParen
  let ⟨e, s₂, h₂⟩ ← expression s₁
  let ⟨_, s₃, h₃⟩ ← s₂.expect .rightParen
  return ⟨e, s₃, by omega⟩
termination_by 7 * s.size

/-- A name, or a call of the function with that name. -/
def nameOrCall (s : TokenStream) : Parse Expr s.size := do
  let ⟨id, s₁, h₁⟩ ← s.expect .identifier
  if s₁.kind = .leftParen then
    have := s₁.size_advance_le
    let ⟨args, s₂, h₂⟩ ← arguments s₁.advance
    let ⟨_, s₃, h₃⟩ ← s₂.expect .rightParen
    return ⟨.call id.loc id.text args, s₃, by omega⟩
  else return ⟨.name id.loc id.text, s₁, h₁⟩
termination_by 7 * s.size

/-- The arguments of a call, up to a token that ends them. -/
def arguments (s : TokenStream) : Parse (List Expr) (s.size + 1) := do
  if s.kind.isTerminator then return ⟨[], s, by omega⟩
  else
    let ⟨e, s₁, h₁⟩ ← expression s
    have := s₁.size_skip_le .comma
    let ⟨rest, s₂, h₂⟩ ← arguments (s₁.skip .comma)
    return ⟨e :: rest, s₂, by omega⟩
termination_by 7 * s.size + 5

end

/-- The program that `s` holds: a block at its first token that takes all tokens up to the end. -/
def program (s : TokenStream) : Parse Expr (s.size + 1) := do
  let ⟨(functions, body), s₁, h₁⟩ ← statements s
  if s₁.atEnd then return ⟨.block s.loc functions body, s₁, h₁⟩
  else throw ⟨.parse (.unexpectedToken s₁.current.text) s₁.loc, s₁⟩

end FrontEnd.Parse
