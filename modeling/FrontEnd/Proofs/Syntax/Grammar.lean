import FrontEnd.Proofs.Syntax.WellFormed
import FrontEnd.Token.Stream
import Mathlib.Data.List.Chain

/-!
# The grammar of programs

Which trees a list of tokens derives. A phrase is made up of just the tokens that are given; where it matters what
follows them, the kind of the next token is given as well.

* program: statements, end of the input;
* statements: { (declaration | statement) [`;`] };
* declaration: `fun` name `(` [parameter { `,` parameter } [`,`]] `)` [`:` type] `=` statement;
* statement: block | while loop | for loop | binding | branch | expression;
* block: opening brace, statements, closing brace;
* while loop: `while` `(` expression `)` statement;
* for loop: `for` `(` name `,` number `,` number [`,` expression] `)` statement | `for` `(` expression `)` statement;
* binding: `let` name `=` expression;
* branch: `if` `(` expression `)` statement [`else` statement];
* expression: a run of terms, each of which is an operator or an operand;
* operand: block | branch | `(` expression `)` | literal | name | name `(` [expression { `,` expression } [`,`]] `)`.

A statement that starts like a block, a loop, a binding or a branch is one. In an expression no operand follows another,
and the next token is a terminator. A branch without an alternative is not followed by `else`. The statements of a block
are followed by its brace, those of a program by the end of the input.
-/

namespace FrontEnd

/-- Whether no operand of a run of terms follows another. -/
def Term.Separated (run : List Term) : Prop := run.IsChain fun a b => ¬ (a.isOperand ∧ b.isOperand)

namespace Grammar

/-- The kind of the first of the tokens `ts`, which are followed by one of kind `next`. -/
def front (ts : List Token) (next : TokenKind) : TokenKind := (ts.head?.map (·.kind)).getD next

theorem front_cons (t : Token) (ts : List Token) (next : TokenKind) : front (t :: ts) next = t.kind := rfl

theorem front_append (ts us : List Token) (next : TokenKind) : front (ts ++ us) next = front ts (front us next) := by
  cases ts <;> rfl

/-- The kinds of tokens that statements other than expressions start with. -/
def opensStatement : TokenKind → Bool
  | .leftBrace | .whileWord | .forWord | .letWord | .ifWord => true
  | _ => false

/-- At most one token, of kind `kind`. -/
inductive Optional (kind : TokenKind) : List Token → Prop
  | absent : Optional kind []
  | present {t : Token} (h : t.kind = kind) : Optional kind [t]

/-! ## Declarations -/

/-- The token names a type. -/
def Names (token : Token) (ty : Ty) : Prop := token.kind = .typeName ∧ Ty.ofKeyword? token.text = some ty

inductive Parameters : List Token → List (Text × Ty) → Prop
  | nil : Parameters [] []
  | last {id colon type : Token} {ty : Ty} (hid : id.kind = .identifier) (hc : colon.kind = .colon)
    (ht : Names type ty) : Parameters [id, colon, type] [(id.text, ty)]
  | cons {id colon type comma : Token} {ty : Ty} {rest : List Token} {params : List (Text × Ty)}
    (hid : id.kind = .identifier) (hc : colon.kind = .colon) (ht : Names type ty) (hs : comma.kind = .comma)
    (hr : Parameters rest params) : Parameters (id :: colon :: type :: comma :: rest) ((id.text, ty) :: params)

inductive ReturnType : List Token → Ty → Prop
  | unstated : ReturnType [] .any
  | stated {colon type : Token} {ty : Ty} (hc : colon.kind = .colon) (ht : Names type ty) : ReturnType [colon, type] ty

/-- A declaration up to the sign in front of the function's body. -/
inductive Header : List Token → Signature → Prop
  | mk {word id opening closing sign : Token} {ps rs : List Token} {params : List (Text × Ty)} {ret : Ty}
    (hw : word.kind = .funWord) (hid : id.kind = .identifier) (ho : opening.kind = .leftParen)
    (hp : Parameters ps params) (hc : closing.kind = .rightParen) (hr : ReturnType rs ret)
    (hs : sign.kind = .operator .assign) :
    Header (word :: id :: opening :: (ps ++ closing :: (rs ++ [sign]))) ⟨id.text, word.loc, params, ret⟩

/-! ## Statements and expressions -/

/-- The token is a number, which bounds a range. -/
def Bounds (token : Token) (b : Bound) : Prop :=
  ∃ value, Literal.ofToken token = .ok value ∧ Number.ofLiteral? value = some b.value ∧ token.loc = b.loc

mutual

/-- Functions and statements; the declaration of a function is among the statements as well. -/
inductive Statements : List Token → TokenKind → List Function → List Expr → Prop
  | nil {next : TokenKind} : Statements [] next [] []
  | function {ts sep rest : List Token} {next : TokenKind} {f : Function} {fs : List Function} {es : List Expr}
    (hf : Declaration ts (front (sep ++ rest) next) f) (hs : Optional .semicolon sep)
    (hr : Statements rest next fs es) :
    Statements (ts ++ (sep ++ rest)) next (f :: fs) (Expr.declarationOf f.signature :: es)
  | statement {ts sep rest : List Token} {next : TokenKind} {e : Expr} {fs : List Function} {es : List Expr}
    (he : Statement ts (front (sep ++ rest) next) e) (hs : Optional .semicolon sep) (hr : Statements rest next fs es) :
    Statements (ts ++ (sep ++ rest)) next fs (e :: es)

inductive Declaration : List Token → TokenKind → Function → Prop
  | mk {hs ts : List Token} {next : TokenKind} {signature : Signature} {body : Expr} (hh : Header hs signature)
    (hb : Statement ts next body) : Declaration (hs ++ ts) next ⟨signature, body⟩

inductive Statement : List Token → TokenKind → Expr → Prop
  | block {ts : List Token} {next : TokenKind} {e : Expr} (h : Block ts e) : Statement ts next e
  | whileLoop {ts : List Token} {next : TokenKind} {e : Expr} (h : WhileLoop ts next e) : Statement ts next e
  | forLoop {ts : List Token} {next : TokenKind} {e : Expr} (h : ForLoop ts next e) : Statement ts next e
  | binding {ts : List Token} {next : TokenKind} {e : Expr} (h : Binding ts next e) : Statement ts next e
  | branch {ts : List Token} {next : TokenKind} {e : Expr} (h : Branch ts next e) : Statement ts next e
  | expression {ts : List Token} {next : TokenKind} {e : Expr} (h : Expression ts next e)
    (hno : opensStatement (front ts next) = false) : Statement ts next e

inductive Block : List Token → Expr → Prop
  | mk {opening closing : Token} {ts : List Token} {fs : List Function} {es : List Expr}
    (ho : opening.kind = .leftBrace) (hs : Statements ts .rightBrace fs es) (hc : closing.kind = .rightBrace) :
    Block (opening :: (ts ++ [closing])) (.block opening.loc fs es)

inductive WhileLoop : List Token → TokenKind → Expr → Prop
  | mk {word : Token} {ts us : List Token} {next : TokenKind} {test body : Expr} (hw : word.kind = .whileWord)
    (ht : Parenthesized ts test) (hb : Statement us next body) :
    WhileLoop (word :: (ts ++ us)) next (.whileLoop word.loc test body)

inductive Binding : List Token → TokenKind → Expr → Prop
  | mk {word id sign : Token} {ts : List Token} {next : TokenKind} {value : Expr} (hw : word.kind = .letWord)
    (hid : id.kind = .identifier) (hs : sign.kind = .operator .assign) (hv : Expression ts next value) :
    Binding (word :: id :: sign :: ts) next (.letIn word.loc id.text value)

inductive Branch : List Token → TokenKind → Expr → Prop
  | ifThen {word : Token} {ts us : List Token} {next : TokenKind} {test body : Expr} (hw : word.kind = .ifWord)
    (ht : Parenthesized ts test) (hb : Statement us next body) (hno : next ≠ .elseWord) :
    Branch (word :: (ts ++ us)) next (.ifThen word.loc test body)
  | ifElse {word sign : Token} {ts us vs : List Token} {next : TokenKind} {test body orelse : Expr}
    (hw : word.kind = .ifWord) (ht : Parenthesized ts test) (hb : Statement us .elseWord body)
    (hs : sign.kind = .elseWord) (he : Statement vs next orelse) :
    Branch (word :: (ts ++ (us ++ sign :: vs))) next (.ifElse word.loc test body orelse)

inductive ForLoop : List Token → TokenKind → Expr → Prop
  | range {word opening : Token} {ts : List Token} {next : TokenKind} {e : Expr} (hw : word.kind = .forWord)
    (ho : opening.kind = .leftParen) (h : RangeLoop word.loc ts next e) : ForLoop (word :: opening :: ts) next e
  | counting {word opening : Token} {ts : List Token} {next : TokenKind} {e : Expr} (hw : word.kind = .forWord)
    (ho : opening.kind = .leftParen) (h : CountingLoop word.loc ts next e) : ForLoop (word :: opening :: ts) next e

/-- A loop at `loc` from the name of its variable on. -/
inductive RangeLoop : Location → List Token → TokenKind → Expr → Prop
  | mk {loc : Location} {id comma start comma' stop closing : Token} {ts us : List Token} {next : TokenKind}
    {a b : Bound} {step : Option Expr} {body : Expr} (hid : id.kind = .identifier) (hc : comma.kind = .comma)
    (ha : Bounds start a) (hc' : comma'.kind = .comma) (hb : Bounds stop b) (hs : Step ts .rightParen step)
    (hp : closing.kind = .rightParen) (hbody : Statement us next body) :
    RangeLoop loc (id :: comma :: start :: comma' :: stop :: (ts ++ closing :: us)) next
      (Expr.rangeLoop loc id.text a b step body)

/-- The amount that a loop steps by. -/
inductive Step : List Token → TokenKind → Option Expr → Prop
  | absent {next : TokenKind} : Step [] next none
  | present {comma : Token} {ts : List Token} {next : TokenKind} {e : Expr} (hc : comma.kind = .comma)
    (he : Expression ts next e) : Step (comma :: ts) next (some e)

/-- A loop at `loc` from its count on. -/
inductive CountingLoop : Location → List Token → TokenKind → Expr → Prop
  | mk {loc : Location} {closing : Token} {ts us : List Token} {next : TokenKind} {count body : Expr}
    (hc : Expression ts .rightParen count) (hp : closing.kind = .rightParen) (hb : Statement us next body) :
    CountingLoop loc (ts ++ closing :: us) next (Expr.countingLoop loc count body)

inductive Parenthesized : List Token → Expr → Prop
  | mk {opening closing : Token} {ts : List Token} {e : Expr} (ho : opening.kind = .leftParen)
    (he : Expression ts .rightParen e) (hc : closing.kind = .rightParen) :
    Parenthesized (opening :: (ts ++ [closing])) e

inductive Expression : List Token → TokenKind → Expr → Prop
  | mk {ts : List Token} {next : TokenKind} {run : List Term} {e : Expr} (h : Terms ts next run) (hne : run ≠ [])
    (hs : Term.Separated run) (hr : Term.resolve run = .ok e) (hn : next.isTerminator) : Expression ts next e

inductive Terms : List Token → TokenKind → List Term → Prop
  | nil {next : TokenKind} : Terms [] next []
  | operator {t : Token} {op : Operator} {rest : List Token} {next : TokenKind} {run : List Term}
    (ho : t.kind = .operator op) (hr : Terms rest next run) : Terms (t :: rest) next (.operator op t.loc :: run)
  | operand {ts rest : List Token} {next : TokenKind} {e : Expr} {run : List Term}
    (he : Operand ts (front rest next) e) (hr : Terms rest next run) : Terms (ts ++ rest) next (.operand e :: run)

inductive Operand : List Token → TokenKind → Expr → Prop
  | block {ts : List Token} {next : TokenKind} {e : Expr} (h : Block ts e) : Operand ts next e
  | branch {ts : List Token} {next : TokenKind} {e : Expr} (h : Branch ts next e) : Operand ts next e
  | parenthesized {ts : List Token} {next : TokenKind} {e : Expr} (h : Parenthesized ts e) : Operand ts next e
  | literal {t : Token} {next : TokenKind} {value : Literal} (h : Literal.ofToken t = .ok value) :
    Operand [t] next (.literal t.loc value)
  | named {ts : List Token} {next : TokenKind} {e : Expr} (h : Named ts e) : Operand ts next e

/-- A name or a call. -/
inductive Named : List Token → Expr → Prop
  | name {id : Token} (h : id.kind = .identifier) : Named [id] (.name id.loc id.text)
  | call {id opening closing : Token} {ts : List Token} {args : List Expr} (hid : id.kind = .identifier)
    (ho : opening.kind = .leftParen) (ha : Arguments ts args) (hc : closing.kind = .rightParen) :
    Named (id :: opening :: (ts ++ [closing])) (.call id.loc id.text args)

/-- The arguments of a call, which are followed by its closing parenthesis. -/
inductive Arguments : List Token → List Expr → Prop
  | nil : Arguments [] []
  | last {ts : List Token} {e : Expr} (he : Expression ts .rightParen e) : Arguments ts [e]
  | cons {ts rest : List Token} {comma : Token} {e : Expr} {args : List Expr} (he : Expression ts .comma e)
    (hc : comma.kind = .comma) (hr : Arguments rest args) : Arguments (ts ++ comma :: rest) (e :: args)

end

/-- All tokens of a program with the one that marks the end of the input. The program is at its first token. -/
inductive Program : List Token → Expr → Prop
  | mk {ts : List Token} {first last : Token} {fs : List Function} {es : List Expr}
    (hs : Statements ts .endOfInput fs es) (hl : last.kind = .endOfInput)
    (hf : (ts ++ [last]).head? = some first) : Program (ts ++ [last]) (.block first.loc fs es)

/-! ## First tokens -/

section
variable {ts : List Token} {next : TokenKind} {e : Expr}

theorem Block.front_eq (h : Block ts e) : front ts next = .leftBrace := by
  cases h with
  | mk ho hs hc => exact ho

theorem WhileLoop.front_eq {k : TokenKind} (h : WhileLoop ts next e) : front ts k = .whileWord := by
  cases h with
  | mk hw ht hb => exact hw

theorem ForLoop.front_eq {k : TokenKind} (h : ForLoop ts next e) : front ts k = .forWord := by
  cases h with
  | range hw ho h => exact hw
  | counting hw ho h => exact hw

theorem Binding.front_eq {k : TokenKind} (h : Binding ts next e) : front ts k = .letWord := by
  cases h with
  | mk hw hid hs hv => exact hw

theorem Branch.front_eq {k : TokenKind} (h : Branch ts next e) : front ts k = .ifWord := by
  cases h with
  | ifThen hw ht hb hno => exact hw
  | ifElse hw ht hb hs he => exact hw

theorem Parenthesized.front_eq (h : Parenthesized ts e) : front ts next = .leftParen := by
  cases h with
  | mk ho he hc => exact ho

theorem Named.front_eq (h : Named ts e) : front ts next = .identifier := by
  cases h with
  | name hid => exact hid
  | call hid ho ha hc => exact hid

/-- The first token of a statement decides what it is. -/
theorem statement_iff : Statement ts next e ↔
    match front ts next with
    | .leftBrace => Block ts e
    | .whileWord => WhileLoop ts next e
    | .forWord => ForLoop ts next e
    | .letWord => Binding ts next e
    | .ifWord => Branch ts next e
    | _ => Expression ts next e := by
  constructor
  · intro h
    cases h with
    | block h => rw [h.front_eq]; exact h
    | whileLoop h => rw [h.front_eq]; exact h
    | forLoop h => rw [h.front_eq]; exact h
    | binding h => rw [h.front_eq]; exact h
    | branch h => rw [h.front_eq]; exact h
    | expression h hno => split <;> simp_all [opensStatement]
  · split
    · exact .block
    · exact .whileLoop
    · exact .forLoop
    · exact .binding
    · exact .branch
    · exact fun h => .expression h (by unfold opensStatement; split <;> simp_all)

/-- The first token of an operand decides what it is. -/
theorem operand_iff : Operand ts next e ↔
    match front ts next with
    | .leftBrace => Block ts e
    | .ifWord => Branch ts next e
    | .leftParen => Parenthesized ts e
    | .integer | .decimal | .boolean | .character | .string =>
      ∃ t value, ts = [t] ∧ Literal.ofToken t = .ok value ∧ e = .literal t.loc value
    | .identifier => Named ts e
    | _ => False := by
  constructor
  · intro h
    cases h with
    | block h => rw [h.front_eq]; exact h
    | branch h => rw [h.front_eq]; exact h
    | parenthesized h => rw [h.front_eq]; exact h
    | named h => rw [h.front_eq]; exact h
    | @literal t next value h =>
      have hvalue : ∃ t' value', [t] = [t'] ∧ Literal.ofToken t' = .ok value' ∧
          Expr.literal t.loc value = .literal t'.loc value' := ⟨t, value, rfl, h, rfl⟩
      have hfront : front [t] next = t.kind := rfl
      rcases Literal.kind_of_ofToken h with hk | hk | hk | hk | hk <;> rw [hfront, hk] <;> exact hvalue
  · split
    · exact .block
    · exact .branch
    · exact .parenthesized
    iterate 5
      · rintro ⟨t, value, rfl, h, rfl⟩
        exact .literal h
    · exact .named
    · exact False.elim

/-- The kinds of tokens that a term starts with. -/
def opensTerm : TokenKind → Bool
  | .operator _ | .leftBrace | .ifWord | .leftParen | .integer | .decimal | .boolean | .character | .string
  | .identifier => true
  | _ => false

theorem not_terminator_of_opensTerm {k : TokenKind} (h : opensTerm k) : k.isTerminator = false ∧ k ≠ .funWord := by
  cases k <;> simp_all [opensTerm, TokenKind.isTerminator]

theorem Operand.opens (h : Operand ts next e) : ∃ t us, ts = t :: us ∧ opensTerm t.kind := by
  have hne : ts ≠ [] := by
    cases h with
    | block h | branch h | parenthesized h | named h => cases h <;> exact List.cons_ne_nil _ _
    | literal h => exact List.cons_ne_nil _ _
  obtain ⟨t, us, rfl⟩ := List.exists_cons_of_ne_nil hne
  refine ⟨t, us, rfl, ?_⟩
  have hfront := operand_iff.1 h
  rw [show front (t :: us) next = t.kind from rfl] at hfront
  split at hfront <;> first | exact hfront.elim | simp [opensTerm, *]

theorem Terms.opens {run : List Term} (h : Terms ts next run) (hne : run ≠ []) :
    ∃ t us, ts = t :: us ∧ opensTerm t.kind := by
  cases h with
  | nil => exact absurd rfl hne
  | operator ho hr => exact ⟨_, _, rfl, by simp [ho, opensTerm]⟩
  | operand he hr =>
    obtain ⟨t, us, rfl, ht⟩ := he.opens
    exact ⟨t, _, rfl, ht⟩

theorem Expression.opens (h : Expression ts next e) : ∃ t us, ts = t :: us ∧ opensTerm t.kind := by
  cases h with
  | mk h hne hs hr hn => exact h.opens hne

theorem Terms.opensTerm {run : List Term} (h : Terms ts next run) (hne : run ≠ []) (k : TokenKind) :
    opensTerm (front ts k) := by
  obtain ⟨t, us, rfl, ht⟩ := h.opens hne
  exact ht

theorem Terms.front_ne {run : List Term} {kind : TokenKind} (h : Terms ts next run)
    (hk : Grammar.opensTerm kind = false) (hn : next ≠ kind) : front ts next ≠ kind := by
  by_cases hne : run = []
  · subst hne
    cases h
    exact hn
  · intro heq
    simp [← heq, h.opensTerm hne] at hk

/-- A name at the front of an expression is not followed by a comma that belongs to the expression. -/
theorem Expression.second_ne_comma (h : Expression ts next e) (hn : next ≠ .comma) :
    ∃ t us, ts = t :: us ∧ (t.kind = .identifier → front us next ≠ .comma) := by
  obtain ⟨hterms, hne, -, -, -⟩ := h
  cases hterms with
  | nil => exact absurd rfl hne
  | operator ho hr => exact ⟨_, _, rfl, by simp [ho]⟩
  | @operand ts rest next e run he hr =>
    obtain ⟨t, us, rfl, -⟩ := he.opens
    refine ⟨t, us ++ rest, rfl, fun ht => ?_⟩
    have hnamed := operand_iff.1 he
    rw [show front (t :: us) _ = .identifier from ht] at hnamed
    cases hnamed with
    | name hid => exact hr.front_ne rfl hn
    | call hid ho ha hc =>
      rw [List.cons_append, front_cons, ho]
      simp

theorem CountingLoop.second_ne_comma {loc : Location} (h : CountingLoop loc ts next e) :
    ∃ t us, ts = t :: us ∧ (t.kind = .identifier → front us next ≠ .comma) := by
  obtain ⟨hc, hp, hb⟩ := h
  obtain ⟨t, us, rfl, hno⟩ := hc.second_ne_comma (by simp)
  refine ⟨t, us ++ _ :: _, rfl, fun ht => ?_⟩
  rw [front_append, front_cons, hp]
  exact hno ht

theorem RangeLoop.second_eq_comma {loc : Location} (h : RangeLoop loc ts next e) :
    ∃ t us, ts = t :: us ∧ t.kind = .identifier ∧ front us next = .comma := by
  cases h with
  | mk hid hc ha hc' hb hs hp hbody => exact ⟨_, _, rfl, hid, hc⟩

theorem Header.front_eq {signature : Signature} (h : Header ts signature) : front ts next = .funWord := by
  cases h with
  | mk hw hid ho hp hc hr hs => exact hw

theorem Declaration.front_eq {f : Function} {k : TokenKind} (h : Declaration ts k f) : front ts next = .funWord := by
  cases h with
  | mk hh hb => rw [front_append, hh.front_eq]

theorem Expression.terminator (h : Expression ts next e) : next.isTerminator := by
  cases h with
  | mk h hne hs hr hn => exact hn

theorem Expression.not_terminator {k : TokenKind} (h : Expression ts k e) : (front ts next).isTerminator = false := by
  obtain ⟨t, us, rfl, ht⟩ := h.opens
  exact (not_terminator_of_opensTerm ht).1

theorem Arguments.eq_nil_of_terminator {args : List Expr} (h : Arguments ts args)
    (hk : (front ts .rightParen).isTerminator) : ts = [] ∧ args = [] := by
  cases h with
  | nil => exact ⟨rfl, rfl⟩
  | last he => simp [he.not_terminator] at hk
  | cons he hc hr => simp [front_append, he.not_terminator] at hk

theorem Statement.front_spec {k : TokenKind} (h : Statement ts next e) :
    (front ts k).isTerminator = false ∧ front ts k ≠ .funWord := by
  cases h with
  | block h | whileLoop h | forLoop h | binding h | branch h => simp [h.front_eq, TokenKind.isTerminator]
  | expression h hno =>
    obtain ⟨t, us, rfl, ht⟩ := h.opens
    exact not_terminator_of_opensTerm ht

theorem Statements.front_ne_semicolon {fs : List Function} {es : List Expr} (h : Statements ts next fs es)
    (hn : next ≠ .semicolon) : front ts next ≠ .semicolon := by
  cases h with
  | nil => exact hn
  | function hf hs hr => simp [front_append, hf.front_eq]
  | statement he hs hr =>
    rw [front_append]
    intro hk
    have hno := hk ▸ he.front_spec.1
    exact Bool.noConfusion hno

end
end Grammar
end FrontEnd
