import FrontEnd.Proofs.Syntax.Quotation
import FrontEnd.Proofs.Syntax.WellFormed

/-!
# Trees as text

* `Expr.text` : the text of a tree, on one line, with every expression in parentheses, a branch also where a statement
  may stand, and `;` behind every statement of a block; a function's return type is left out if it is `Ty.any`;
* `Expr.Spellable` : the trees with such a text, by the position they stand in; a binding or a while loop is a
  statement only, and declarations stand in blocks, in the order of the block's functions;
* `Expr.unlocated` : a tree without its places.

`Quoted.decode_closed` and `Quoted.quotedLength_closed` say that escapes are taken back, and that a quoted text ends at
its closing quote.
-/

namespace FrontEnd

namespace Quoted

/-- How a character is written between quotes. -/
def escape : Char → Text
  | '\n' => ['\\', 'n']
  | '\r' => ['\\', 'r']
  | '\\' => ['\\', '\\']
  | '\'' => ['\\', '\'']
  | '"' => ['\\', '"']
  | c => [c]

/-- The characters as they are written between quotes, and the closing quote. -/
def closed (quote : Char) (contents : Text) : Text := contents.flatMap escape ++ [quote]

/-- A character is written as itself, or as a backslash and a character that stands for it. -/
theorem escape_eq (c : Char) : (escape c = [c] ∧ c ≠ '\n' ∧ c ≠ '\r' ∧ c ≠ '\\' ∧ c ≠ '\'' ∧ c ≠ '"') ∨
    ∃ e, escape c = ['\\', e] ∧ escaped? e = some c ∧ e ≠ '\n' ∧ e ≠ '\r' := by
  unfold escape
  split
  · exact .inr ⟨'n', rfl, rfl, by decide, by decide⟩
  · exact .inr ⟨'r', rfl, rfl, by decide, by decide⟩
  · exact .inr ⟨'\\', rfl, rfl, by decide, by decide⟩
  · exact .inr ⟨'\'', rfl, rfl, by decide, by decide⟩
  · exact .inr ⟨'"', rfl, rfl, by decide, by decide⟩
  · exact .inl ⟨rfl, by assumption, by assumption, by assumption, by assumption, by assumption⟩

section
variable {quote : Char} (hquote : quote = '"' ∨ quote = '\'') (contents : Text)
include hquote

theorem closed_oneLine : ∀ c ∈ closed quote contents, c ≠ '\n' ∧ c ≠ '\r' := by
  intro c hc
  rcases List.mem_append.1 hc with hc | hc
  · obtain ⟨d, -, hc⟩ := List.mem_flatMap.1 hc
    rcases escape_eq d with ⟨heq, hn, hr, -⟩ | ⟨e, heq, -, hn, hr⟩
    · rw [heq, List.mem_singleton] at hc
      exact hc ▸ ⟨hn, hr⟩
    · simp only [heq, List.mem_cons, List.not_mem_nil, or_false] at hc
      rcases hc with rfl | rfl
      · decide
      · exact ⟨hn, hr⟩
  · rw [List.mem_singleton] at hc
    rcases hquote with rfl | rfl <;> exact hc ▸ by decide

theorem spelling_escape : Spelling quote (contents.flatMap escape) contents := by
  induction contents with
  | nil => exact .nil
  | cons c cs ih =>
    rw [List.flatMap_cons]
    rcases escape_eq c with ⟨heq, hn, -, hb, hs, hd⟩ | ⟨e, heq, he, -⟩
    · rw [heq]
      exact .raw (by rcases hquote with rfl | rfl <;> assumption) hb hn ih
    · rw [heq]
      exact .escaped he ih

theorem quotedLength_closed (rest : Text) :
    Scan.quotedLength quote (closed quote contents ++ rest) = (closed quote contents).length := by
  have hlength := (spelling_escape hquote contents).quotedLength (quote_ne_backslash hquote) rest
  simpa [closed] using hlength

theorem decode_closed : decode (quote :: closed quote contents) = .ok contents := by
  rw [closed, decode_cons, (spelling_escape hquote contents).unescape (quote_ne_backslash hquote)]
  rfl

end

end Quoted

/-- How a literal is written. A decimal or a unit value has no text. -/
def Literal.text : Literal → Text
  | int n => Text.ofInt n
  | bool b => if b then "true" else "false"
  | char c => '\'' :: Quoted.closed '\'' [c]
  | str s => '"' :: Quoted.closed '"' s
  | float _ | unit => []

/-- Whether a literal can be written. -/
def Literal.Spellable : Literal → Prop
  | int n => 0 ≤ n ∧ n ≤ greatestInt
  | bool _ | char _ | str _ => True
  | float _ | unit => False

/-- Whether a word can be the name of a variable or function. -/
def IsIdentifier (word : Text) : Prop := Scan.isWord word ∧ Scan.wordKind word = .identifier

namespace Signature

/-- A parameter with its type. -/
def parameterText (param : Text × Ty) : Text := param.1 ++ ": " ++ param.2.keyword

/-- The type of the result, if one is stated. -/
def resultText (ret : Ty) : Text := if ret = .any then [] else ": " ++ ret.keyword

/-- A declaration up to the function's body. -/
def text (s : Signature) : Text :=
  "fun " ++ s.name ++ "(" ++ Text.joined ", " (s.params.map parameterText) ++ ")" ++ resultText s.ret ++ " = "

/-- Whether names and types can be written. -/
structure Spellable (s : Signature) : Prop where
  name : IsIdentifier s.name
  params : ∀ param ∈ s.params, IsIdentifier param.1 ∧ param.2 ≠ .any

/-- A signature without its place. -/
def unlocated (s : Signature) : Signature := { s with loc := {} }

end Signature

namespace Expr

/-- Where a tree may stand: among the statements of a block or as the body of something, or in an expression. -/
inductive Position where
  | statement
  | expression

/-! ### Layout -/

/-- A text in parentheses. -/
def enclosed (text : Text) : Text := "(" ++ text ++ ")"

/-- An operation on one operand. -/
def unaryText (op : Operator) (operand : Text) : Text := op.spelling ++ operand

/-- An operation on two operands. -/
def binaryText (op : Operator) (lhs rhs : Text) : Text := lhs ++ " " ++ op.spelling ++ " " ++ rhs

/-- A binding. -/
def letText (var value : Text) : Text := "let " ++ var ++ " = " ++ value

/-- A word with a condition, which is in parentheses of its own, and a body. -/
def testedText (word test body : Text) : Text := word ++ " " ++ enclosed test ++ " " ++ body

/-- A branch without its alternative. -/
def ifText (test body : Text) : Text := testedText "if" test body

/-- The alternative of a branch. -/
def elseText (orelse : Text) : Text := " else " ++ orelse

/-- A loop that runs while its condition holds. -/
def whileText (test body : Text) : Text := testedText "while" test body

/-- A block. -/
def bracedText (statements : Text) : Text := ['{', ' '] ++ statements ++ ['}']

/-- A call. -/
def callText (callee : Text) (args : List Text) : Text := callee ++ "(" ++ Text.joined ", " args ++ ")"

/-- A statement of a block and what follows it. -/
def endedText (statement rest : Text) : Text := statement ++ "; " ++ rest

/-! ### Trees -/

mutual

/-- The text of a tree that stands at a position. A loop over a range has none, nor has a declaration by itself. -/
def text (p : Position) : Expr → Text
  | literal _ value => enclosed value.text
  | name _ id => enclosed id
  | unary _ op operand => enclosed (unaryText op (operand.text .expression))
  | binary _ op lhs rhs => enclosed (binaryText op (lhs.text .expression) (rhs.text .expression))
  | letIn _ var value => letText var (value.text .expression)
  | ifThen _ test body => enclosed (ifText (test.text .expression) (body.text .statement))
  | ifElse _ test body orelse =>
    enclosed (ifText (test.text .expression) (body.text .statement) ++ elseText (orelse.text .statement))
  | whileLoop _ test body => whileText (test.text .expression) (body.text .statement)
  | block _ functions statements =>
    let braced := bracedText (statementsText (declarationTexts functions) statements)
    match p with
    | .statement => braced
    | .expression => enclosed braced
  | call _ callee args => enclosed (callText callee (argumentTexts args))
  | forLoop .. | funDecl .. => []

/-- The texts of the arguments of a call. -/
def argumentTexts : List Expr → List Text
  | [] => []
  | e :: es => e.text .expression :: argumentTexts es

/-- The texts of the declarations of functions. -/
def declarationTexts : List Function → List Text
  | [] => []
  | ⟨signature, body⟩ :: fs => (signature.text ++ body.text .statement) :: declarationTexts fs

/-- The text of the statements of a block, where `declarations` are those of its functions. -/
def statementsText (declarations : List Text) : List Expr → Text
  | [] => []
  | e :: es =>
    if e.isDeclaration then endedText (declarations.headD []) (statementsText declarations.tail es)
    else endedText (e.text .statement) (statementsText declarations es)

end

/-- The text of a program with these functions and statements. -/
def programText (functions : List Function) (statements : List Expr) : Text :=
  statementsText (declarationTexts functions) statements

mutual

/-- Whether a tree that stands at a position can be written. -/
inductive Spellable : Position → Expr → Prop
  | literal {p : Position} {loc : Location} {value : Literal} (h : value.Spellable) : Spellable p (.literal loc value)
  | name {p : Position} {loc : Location} {id : Text} (h : IsIdentifier id) : Spellable p (.name loc id)
  | unary {p : Position} {loc : Location} {op : Operator} {operand : Expr} (hop : op.isUnary)
    (h : Spellable .expression operand) : Spellable p (.unary loc op operand)
  | binary {p : Position} {loc : Location} {op : Operator} {lhs rhs : Expr} (hop : op.tier ≠ none)
    (hl : Spellable .expression lhs) (hr : Spellable .expression rhs) : Spellable p (.binary loc op lhs rhs)
  | letIn {loc : Location} {var : Text} {value : Expr} (hvar : IsIdentifier var) (h : Spellable .expression value) :
    Spellable .statement (.letIn loc var value)
  | ifThen {p : Position} {loc : Location} {test body : Expr} (ht : Spellable .expression test)
    (hb : Spellable .statement body) : Spellable p (.ifThen loc test body)
  | ifElse {p : Position} {loc : Location} {test body orelse : Expr} (ht : Spellable .expression test)
    (hb : Spellable .statement body) (he : Spellable .statement orelse) : Spellable p (.ifElse loc test body orelse)
  | whileLoop {loc : Location} {test body : Expr} (ht : Spellable .expression test) (hb : Spellable .statement body) :
    Spellable .statement (.whileLoop loc test body)
  | block {p : Position} {loc : Location} {functions : List Function} {statements : List Expr}
    (h : SpellableBlock functions statements) : Spellable p (.block loc functions statements)
  | call {p : Position} {loc : Location} {callee : Text} {args : List Expr} (hid : IsIdentifier callee)
    (h : SpellableArguments args) : Spellable p (.call loc callee args)

/-- Whether functions and statements of a block can be written. Each function has its declaration. -/
inductive SpellableBlock : List Function → List Expr → Prop
  | nil : SpellableBlock [] []
  | function {signature : Signature} {body : Expr} {loc : Location} {fs : List Function} {es : List Expr}
    (hs : signature.Spellable) (hb : Spellable .statement body) (hr : SpellableBlock fs es) :
    SpellableBlock (⟨signature, body⟩ :: fs) (.funDecl loc signature.name :: es)
  | statement {e : Expr} {fs : List Function} {es : List Expr} (h : Spellable .statement e)
    (hr : SpellableBlock fs es) : SpellableBlock fs (e :: es)

/-- Whether arguments of a call can be written. -/
inductive SpellableArguments : List Expr → Prop
  | nil : SpellableArguments []
  | cons {e : Expr} {es : List Expr} (h : Spellable .expression e) (hr : SpellableArguments es) :
    SpellableArguments (e :: es)

end

mutual

/-- The tree without its places. -/
def unlocated : Expr → Expr
  | literal _ value => literal {} value
  | name _ id => name {} id
  | unary _ op operand => unary {} op operand.unlocated
  | binary _ op lhs rhs => binary {} op lhs.unlocated rhs.unlocated
  | letIn _ var value => letIn {} var value.unlocated
  | ifThen _ test body => ifThen {} test.unlocated body.unlocated
  | ifElse _ test body orelse => ifElse {} test.unlocated body.unlocated orelse.unlocated
  | whileLoop _ test body => whileLoop {} test.unlocated body.unlocated
  | forLoop _ _ var start test step body =>
    forLoop {} {} var start.unlocated test.unlocated step.unlocated body.unlocated
  | block _ functions statements => block {} (unlocatedFunctions functions) (unlocatedAll statements)
  | call _ callee args => call {} callee (unlocatedAll args)
  | funDecl _ declared => funDecl {} declared

/-- The trees without their places. -/
def unlocatedAll : List Expr → List Expr
  | [] => []
  | e :: es => e.unlocated :: unlocatedAll es

/-- The functions without their places. -/
def unlocatedFunctions : List Function → List Function
  | [] => []
  | ⟨signature, body⟩ :: fs => ⟨signature.unlocated, body.unlocated⟩ :: unlocatedFunctions fs

end

end Expr
end FrontEnd
