import FrontEnd.Proofs.Syntax.Nodes
import FrontEnd.Proofs.Syntax.Reading
import FrontEnd.Proofs.Syntax.Recognition
import FrontEnd.Proofs.Syntax.Resolution

/-!
# The tokens that introduce nodes

Every node that is written in the text stands at a token of its own.

* `Token.Introduces` : the token of a node: its operator, literal, name or keyword, or the brace of a block;
* `Introduced`, `IntroducedAll`, `IntroducedBlock` : a tree with the tokens of its nodes in the order of the text, where
  the parts that a loop is given stand at tokens of the loop;
* `Combination.introduced` : precedence keeps the order of the operators and their operands;
* `Grammar.Program.introduced` : the tokens of a derivation that are of introducing kinds are those of its tree;
* `Expr.Supplies` : the parts that a loop is given, with the tokens they stand at;
* `Expr.Origin`, `Introduced.origin` : a node of a tree has tokens of its own that introduce it, declares a function
  with a heading, or has been given to a loop;
* `Expr.Located`, `Expr.Origin.located` : so it stands at its token or at one of a loop that it is given to;
* `readProgram_introductions` : this holds in every program that is accepted, which itself stands at the first token.
-/

namespace FrontEnd

/-- Whether tokens of this kind introduce nodes. Those of a binding or a declaration do so together with the name, the
names of parameters and the sign behind them. -/
def TokenKind.introduces : TokenKind → Bool
  | .operator _ | .identifier | .integer | .decimal | .boolean | .character | .string | .letWord | .ifWord | .whileWord
  | .forWord | .funWord | .leftBrace => true
  | _ => false

namespace Token

/-- The tokens of a list that are of introducing kinds. -/
def introducing (ts : List Token) : List Token := ts.filter (·.kind.introduces)

/-- The token is this name. -/
def Spells (t : Token) (id : Text) : Prop := t.kind = .identifier ∧ t.text = id

/-- The node stands at the token, which spells its operator, value or name, or is its keyword or opening brace. -/
def Introduces (t : Token) (e : Expr) : Prop :=
  t.loc = e.loc ∧
    match e with
    | .literal _ value => Literal.ofToken t = .ok value
    | .name _ id | .call _ id _ => t.Spells id
    | .unary _ op _ | .binary _ op _ _ => t.kind = .operator op
    | .letIn .. => t.kind = .letWord
    | .ifThen .. | .ifElse .. => t.kind = .ifWord
    | .whileLoop .. => t.kind = .whileWord
    | .forLoop .. => t.kind = .forWord
    | .block .. => t.kind = .leftBrace
    | .funDecl .. => t.kind = .funWord

variable {t : Token} {ts us : List Token} {kind : TokenKind}

theorem introducing_nil : introducing [] = [] := rfl

theorem introducing_cons (h : t.kind = kind) :
    introducing (t :: ts) = if kind.introduces then t :: introducing ts else introducing ts := by
  rw [introducing, List.filter_cons, h, introducing]

theorem introducing_append : introducing (ts ++ us) = introducing ts ++ introducing us := List.filter_append ..

/-- A token that closes a phrase introduces nothing. -/
theorem introducing_concat (h : t.kind = kind) (hk : kind.introduces = false) :
    introducing (ts ++ [t]) = introducing ts := by
  rw [introducing_append, introducing_cons h, if_neg (by simp [hk]), introducing_nil, List.append_nil]

theorem introducing_optional (h : Grammar.Optional kind ts) (hk : kind.introduces = false) : introducing ts = [] := by
  cases h with
  | absent => rfl
  | present h => rw [introducing_cons h, if_neg (by simp [hk]), introducing_nil]

theorem introducing_literal {value : Literal} (h : Literal.ofToken t = .ok value) :
    introducing (t :: ts) = t :: introducing ts := by
  rcases Literal.kind_of_ofToken h with hk | hk | hk | hk | hk <;> rw [introducing_cons hk] <;> rfl

end Token

theorem Number.literal_of_ofLiteral? {value : Literal} {n : Number} (h : ofLiteral? value = some n) :
    n.literal = value := by
  cases value <;> cases h <;> rfl

/-! ## Trees with their tokens -/

/-- The keyword of a declaration, the name of the function, those of its parameters and the sign in front of its
body. -/
inductive Heading : List Token → Signature → Prop
  | mk {word id sign : Token} {names : List Token} {s : Signature} (hw : word.Introduces (Expr.declarationOf s))
    (hid : id.Spells s.name) (hn : List.Forall₂ (fun t param => t.Spells param.1) names s.params)
    (hs : sign.kind = .operator .assign) : Heading (word :: id :: (names ++ [sign])) s

/-- Whether the token of a node is in front of those of its parts, with nothing else between them. -/
def Expr.leads : Expr → Bool
  | .literal .. | .name .. | .unary .. | .ifThen .. | .ifElse .. | .whileLoop .. | .call .. => true
  | _ => false

mutual

/-- The tokens introduce the nodes of the tree in the order of the text. A binding has the name and the sign behind its
keyword. Of the parts of a loop over a range the bounds, the amount if there is one and the body have tokens, of those
of a counting loop the count and the body. -/
inductive Introduced : List Token → Expr → Prop
  | leading {t : Token} {ts : List Token} {e : Expr} (ht : t.Introduces e) (he : e.leads)
    (hs : IntroducedAll ts e.children) : Introduced (t :: ts) e
  | binary {t : Token} {ts us : List Token} {loc : Location} {op : Operator} {lhs rhs : Expr} (hl : Introduced ts lhs)
    (ht : t.Introduces (.binary loc op lhs rhs)) (hr : Introduced us rhs) :
    Introduced (ts ++ t :: us) (.binary loc op lhs rhs)
  | letIn {word id sign : Token} {ts : List Token} {loc : Location} {name : Text} {value : Expr}
    (hw : word.Introduces (.letIn loc name value)) (hid : id.Spells name) (hs : sign.kind = .operator .assign)
    (hv : Introduced ts value) : Introduced (word :: id :: sign :: ts) (.letIn loc name value)
  | block {t : Token} {ts : List Token} {loc : Location} {fs : List Function} {es : List Expr}
    (ht : t.Introduces (.block loc fs es)) (hs : IntroducedBlock ts fs es) : Introduced (t :: ts) (.block loc fs es)
  | rangeLoop {word id start stop : Token} {ts us : List Token} {a b : Bound} {step : Option Expr} {body : Expr}
    (hw : word.kind = .forWord) (hid : id.kind = .identifier) (ha : Grammar.Bounds start a)
    (hb : Grammar.Bounds stop b) (hs : IntroducedAll ts step.toList) (hbody : Introduced us body) :
    Introduced (word :: id :: start :: stop :: (ts ++ us)) (Expr.rangeLoop word.loc id.text a b step body)
  | countingLoop {word : Token} {ts us : List Token} {count body : Expr} (hw : word.kind = .forWord)
    (hc : Introduced ts count) (hb : Introduced us body) :
    Introduced (word :: (ts ++ us)) (Expr.countingLoop word.loc count body)

/-- The tokens introduce the nodes of one tree after the other. -/
inductive IntroducedAll : List Token → List Expr → Prop
  | nil : IntroducedAll [] []
  | cons {ts us : List Token} {e : Expr} {es : List Expr} (he : Introduced ts e) (hs : IntroducedAll us es) :
    IntroducedAll (ts ++ us) (e :: es)

/-- The tokens introduce functions and statements of a block. A function has its tokens where its declaration stands
among the statements. -/
inductive IntroducedBlock : List Token → List Function → List Expr → Prop
  | nil : IntroducedBlock [] [] []
  | function {hs ts us : List Token} {f : Function} {fs : List Function} {es : List Expr} (hh : Heading hs f.signature)
    (hb : Introduced ts f.body) (hr : IntroducedBlock us fs es) :
    IntroducedBlock (hs ++ (ts ++ us)) (f :: fs) (Expr.declarationOf f.signature :: es)
  | statement {ts us : List Token} {e : Expr} {fs : List Function} {es : List Expr} (he : Introduced ts e)
    (hr : IntroducedBlock us fs es) : IntroducedBlock (ts ++ us) fs (e :: es)

end

theorem IntroducedAll.single {ts : List Token} {e : Expr} (h : Introduced ts e) : IntroducedAll ts [e] := by
  simpa using IntroducedAll.cons h .nil

/-! ## Runs of terms -/

/-- The tokens introduce the operators of a run and the nodes of its operands. -/
inductive IntroducedRun : List Token → List Term → Prop
  | nil : IntroducedRun [] []
  | operator {t : Token} {op : Operator} {ts : List Token} {run : List Term} (ht : t.kind = .operator op)
    (hr : IntroducedRun ts run) : IntroducedRun (t :: ts) (.operator op t.loc :: run)
  | operand {ts us : List Token} {e : Expr} {run : List Term} (he : Introduced ts e) (hr : IntroducedRun us run) :
    IntroducedRun (ts ++ us) (.operand e :: run)

theorem IntroducedRun.split {left right : List Term} {ts : List Token} (h : IntroducedRun ts (left ++ right)) :
    ∃ us vs, ts = us ++ vs ∧ IntroducedRun us left ∧ IntroducedRun vs right := by
  induction left generalizing ts with
  | nil => exact ⟨[], ts, rfl, .nil, h⟩
  | cons term left ih =>
    cases h with
    | @operator t _ _ _ ht hr =>
      obtain ⟨us, vs, rfl, hl, hr⟩ := ih hr
      exact ⟨t :: us, vs, rfl, .operator ht hl, hr⟩
    | @operand os _ _ _ he hr =>
      obtain ⟨us, vs, rfl, hl, hr⟩ := ih hr
      exact ⟨os ++ us, vs, (List.append_assoc ..).symm, .operand he hl, hr⟩

/-- The tree of a run keeps the order of its tokens. -/
theorem Combination.introduced {c : Combination} {ts : List Token} (h : IntroducedRun ts c.terms) :
    Introduced ts c.expr := by
  induction c generalizing ts with
  | operand e =>
    cases h with
    | operand he hr =>
      cases hr
      rwa [List.append_nil]
  | unary loc op part ih =>
    cases h with
    | operator ht hr => exact .leading ⟨rfl, ht⟩ rfl (.single (ih hr))
  | binary loc op left right ihl ihr =>
    obtain ⟨us, vs, rfl, hl, hr⟩ := h.split
    cases hr with
    | operator ht hr => exact .binary (ihl hl) ⟨rfl, ht⟩ (ihr hr)

/-! ## Derivations -/

namespace Grammar
open Token

section
variable {ts : List Token}

theorem Bounds.introducing_cons {t : Token} {b : Bound} (h : Bounds t b) :
    introducing (t :: ts) = t :: introducing ts := by
  obtain ⟨value, hvalue, -, -⟩ := h
  exact introducing_literal hvalue

theorem Parameters.introducing {params : List (Text × Ty)} (h : Parameters ts params) :
    List.Forall₂ (fun t param => t.Spells param.1) (introducing ts) params := by
  induction h with
  | nil => exact .nil
  | last hid hc ht =>
    simp only [introducing_cons hid, introducing_cons hc, introducing_cons ht.1]
    exact .cons ⟨hid, rfl⟩ .nil
  | cons hid hc ht hs _ ih =>
    simp only [introducing_cons hid, introducing_cons hc, introducing_cons ht.1, introducing_cons hs]
    exact .cons ⟨hid, rfl⟩ ih

theorem ReturnType.introducing {ret : Ty} (h : ReturnType ts ret) : introducing ts = [] := by
  cases h with
  | unstated => rfl
  | stated hc ht => rw [introducing_cons hc, introducing_cons ht.1]; rfl

theorem Header.introducing {s : Signature} (h : Header ts s) : Heading (introducing ts) s := by
  cases h with
  | mk hw hid ho hp hc hr hs =>
    simp only [introducing_append, introducing_cons hw, introducing_cons hid, introducing_cons ho,
      introducing_cons hc, hr.introducing, introducing_cons hs]
    exact .mk ⟨rfl, hw⟩ ⟨hid, rfl⟩ hp.introducing hs

end

mutual

theorem Statements.introduced : ∀ {ts : List Token} {next : TokenKind} {fs : List Function} {es : List Expr},
    Statements ts next fs es → IntroducedBlock (introducing ts) fs es
  | _, _, _, _, .nil => .nil
  | _, _, _, _, .function hf hs hr => by
    obtain ⟨us, vs, hts, hh, hb⟩ := hf.introduced
    rw [introducing_append, introducing_append, introducing_optional hs rfl, hts, List.append_assoc]
    exact .function hh hb hr.introduced
  | _, _, _, _, .statement he hs hr => by
    rw [introducing_append, introducing_append, introducing_optional hs rfl]
    exact .statement he.introduced hr.introduced

theorem Declaration.introduced : ∀ {ts : List Token} {next : TokenKind} {f : Function}, Declaration ts next f →
    ∃ us vs, introducing ts = us ++ vs ∧ Heading us f.signature ∧ Introduced vs f.body
  | _, _, _, .mk hh hb => ⟨_, _, introducing_append, hh.introducing, hb.introduced⟩

theorem Statement.introduced : ∀ {ts : List Token} {next : TokenKind} {e : Expr}, Statement ts next e →
    Introduced (introducing ts) e
  | _, _, _, .block h => h.introduced
  | _, _, _, .whileLoop h => h.introduced
  | _, _, _, .forLoop h => h.introduced
  | _, _, _, .binding h => h.introduced
  | _, _, _, .branch h => h.introduced
  | _, _, _, .expression h _ => h.introduced

theorem Block.introduced : ∀ {ts : List Token} {e : Expr}, Block ts e → Introduced (introducing ts) e
  | _, _, .mk ho hs hc => by
    rw [introducing_cons ho, introducing_concat hc rfl]
    exact .block ⟨rfl, ho⟩ hs.introduced

theorem WhileLoop.introduced : ∀ {ts : List Token} {next : TokenKind} {e : Expr}, WhileLoop ts next e →
    Introduced (introducing ts) e
  | _, _, _, .mk hw ht hb => by
    rw [introducing_cons hw, introducing_append]
    exact .leading ⟨rfl, hw⟩ rfl (.cons ht.introduced (.single hb.introduced))

theorem Binding.introduced : ∀ {ts : List Token} {next : TokenKind} {e : Expr}, Binding ts next e →
    Introduced (introducing ts) e
  | _, _, _, .mk hw hid hs hv => by
    rw [introducing_cons hw, introducing_cons hid, introducing_cons hs]
    exact .letIn ⟨rfl, hw⟩ ⟨hid, rfl⟩ hs hv.introduced

theorem Branch.introduced : ∀ {ts : List Token} {next : TokenKind} {e : Expr}, Branch ts next e →
    Introduced (introducing ts) e
  | _, _, _, .ifThen hw ht hb _ => by
    rw [introducing_cons hw, introducing_append]
    exact .leading ⟨rfl, hw⟩ rfl (.cons ht.introduced (.single hb.introduced))
  | _, _, _, .ifElse hw ht hb hs he => by
    rw [introducing_cons hw, introducing_append, introducing_append, introducing_cons hs]
    exact .leading ⟨rfl, hw⟩ rfl (.cons ht.introduced (.cons hb.introduced (.single he.introduced)))

theorem ForLoop.introduced : ∀ {ts : List Token} {next : TokenKind} {e : Expr}, ForLoop ts next e →
    Introduced (introducing ts) e
  | _, _, _, .range hw ho h => by
    rw [introducing_cons hw, introducing_cons ho]
    exact h.introduced hw rfl
  | _, _, _, .counting hw ho h => by
    rw [introducing_cons hw, introducing_cons ho]
    exact h.introduced hw rfl

theorem RangeLoop.introduced : ∀ {loc : Location} {ts : List Token} {next : TokenKind} {e : Expr},
    RangeLoop loc ts next e → ∀ {word : Token}, word.kind = .forWord → word.loc = loc →
      Introduced (word :: introducing ts) e
  | _, _, _, _, .mk hid hc ha hc' hb hs hp hbody, _, hw, rfl => by
    rw [introducing_cons hid, introducing_cons hc, ha.introducing_cons, introducing_cons hc', hb.introducing_cons,
      introducing_append, introducing_cons hp]
    exact .rangeLoop hw hid ha hb hs.introduced hbody.introduced

theorem Step.introduced : ∀ {ts : List Token} {next : TokenKind} {step : Option Expr}, Step ts next step →
    IntroducedAll (introducing ts) step.toList
  | _, _, _, .absent => .nil
  | _, _, _, .present hc he => by
    rw [introducing_cons hc]
    exact .single he.introduced

theorem CountingLoop.introduced : ∀ {loc : Location} {ts : List Token} {next : TokenKind} {e : Expr},
    CountingLoop loc ts next e → ∀ {word : Token}, word.kind = .forWord → word.loc = loc →
      Introduced (word :: introducing ts) e
  | _, _, _, _, .mk hc hp hb, _, hw, rfl => by
    rw [introducing_append, introducing_cons hp]
    exact .countingLoop hw hc.introduced hb.introduced

theorem Parenthesized.introduced : ∀ {ts : List Token} {e : Expr}, Parenthesized ts e → Introduced (introducing ts) e
  | _, _, .mk ho he hc => by
    rw [introducing_cons ho, introducing_concat hc rfl]
    exact he.introduced

theorem Expression.introduced : ∀ {ts : List Token} {next : TokenKind} {e : Expr}, Expression ts next e →
    Introduced (introducing ts) e
  | _, _, _, .mk h hne hs hr _ => by
    -- The run is done with before its tree is known: the tree is not built from the derivation of the run.
    have hrun := h.introduced
    have hyields := Term.resolve_yields_shaped hne hs
    rw [hr] at hyields
    obtain ⟨-, c, rfl, rfl, -⟩ := hyields
    exact Combination.introduced hrun

theorem Terms.introduced : ∀ {ts : List Token} {next : TokenKind} {run : List Term}, Terms ts next run →
    IntroducedRun (introducing ts) run
  | _, _, _, .nil => .nil
  | _, _, _, .operator ho hr => by
    rw [introducing_cons ho]
    exact .operator ho hr.introduced
  | _, _, _, .operand he hr => by
    rw [introducing_append]
    exact .operand he.introduced hr.introduced

theorem Operand.introduced : ∀ {ts : List Token} {next : TokenKind} {e : Expr}, Operand ts next e →
    Introduced (introducing ts) e
  | _, _, _, .block h => h.introduced
  | _, _, _, .branch h => h.introduced
  | _, _, _, .parenthesized h => h.introduced
  | _, _, _, .named h => h.introduced
  | _, _, _, .literal h => by
    rw [introducing_literal h]
    exact .leading ⟨rfl, h⟩ rfl .nil

theorem Named.introduced : ∀ {ts : List Token} {e : Expr}, Named ts e → Introduced (introducing ts) e
  | _, _, .name hid => by
    rw [introducing_cons hid]
    exact .leading ⟨rfl, hid, rfl⟩ rfl .nil
  | _, _, .call hid ho ha hc => by
    rw [introducing_cons hid, introducing_cons ho, introducing_concat hc rfl]
    exact .leading ⟨rfl, hid, rfl⟩ rfl ha.introduced

theorem Arguments.introduced : ∀ {ts : List Token} {args : List Expr}, Arguments ts args →
    IntroducedAll (introducing ts) args
  | _, _, .nil => .nil
  | _, _, .last he => .single he.introduced
  | _, _, .cons he hc hr => by
    rw [introducing_append, introducing_cons hc]
    exact .cons he.introduced hr.introduced

end

theorem Program.introduced {ts : List Token} {e : Expr} (h : Program ts e) : ∃ first fs es,
    ts.head? = some first ∧ e = .block first.loc fs es ∧ IntroducedBlock (introducing ts) fs es := by
  cases h with
  | mk hs hl hf =>
    refine ⟨_, _, _, hf, rfl, ?_⟩
    rw [introducing_concat hl rfl]
    exact hs.introduced

/-- A bound is the literal that its token introduces. -/
theorem Bounds.introduces {t : Token} {b : Bound} (h : Bounds t b) : t.Introduces (.literal b.loc b.value.literal) := by
  obtain ⟨value, hvalue, hnumber, hloc⟩ := h
  exact ⟨hloc, Number.literal_of_ofLiteral? hnumber ▸ hvalue⟩

end Grammar

/-! ## Places of nodes -/

namespace Expr

/-- The loop at `p` has been given the node at `q`, which stands at the token `t`. All of the nodes that a counting loop
is given stand at its keyword. Of those of a loop over a range the binding of the variable and the variable in the test
stand at the first bound; the test, the step and the variable in it at the second one, as does an amount that is not
stated; and the sign of an amount that is turned round stands at the keyword. -/
inductive Supplies (p : Path) : Expr → Path → Token → Prop
  | counting {word : Token} {count body : Expr} {q : Path} (hw : word.kind = .forWord)
    (hq : q ∈ [0 :: p, 0 :: 0 :: p, 1 :: p, 0 :: 1 :: p, 2 :: p, 0 :: 2 :: p, 1 :: 2 :: p]) :
    Supplies p (countingLoop word.loc count body) q word
  | start {token : Token} {loc : Location} {var : Text} {a b : Bound} {step : Option Expr} {body : Expr} {q : Path}
    (ha : Grammar.Bounds token a) (hq : q ∈ [0 :: p, 0 :: 1 :: p]) :
    Supplies p (rangeLoop loc var a b step body) q token
  | stop {token : Token} {loc : Location} {var : Text} {a b : Bound} {step : Option Expr} {body : Expr} {q : Path}
    (hb : Grammar.Bounds token b) (hq : q ∈ [1 :: p, 2 :: p, 0 :: 2 :: p]) :
    Supplies p (rangeLoop loc var a b step body) q token
  | one {token : Token} {loc : Location} {var : Text} {a b : Bound} {body : Expr} (hb : Grammar.Bounds token b) :
    Supplies p (rangeLoop loc var a b none body) (1 :: 2 :: p) token
  | sign {word : Token} {var : Text} {a b : Bound} {amount body : Expr} (hw : word.kind = .forWord)
    (hdown : runsUpwards a b = false) :
    Supplies p (rangeLoop word.loc var a b (some amount) body) (1 :: 2 :: p) word

/-- The node of the program stands at one of the tokens, which introduces it or at which it is given to a loop. No
declaration is given to a loop. -/
def Located (tokens : List Token) (root : Path) (program : Expr) (n : Path × Expr) : Prop :=
  ∃ t ∈ tokens, t.loc = n.2.loc ∧ (t.Introduces n.2 ∨ n.2.isDeclaration = false ∧
    ∃ p loop, (p, loop) ∈ nodes root program ∧ Supplies p loop n.1 t)

variable {tokens : List Token} {root p : Path} {program : Expr}

/-- Where a node of the program comes from: tokens of its own introduce it, it declares the function with a heading, or
it has been given to a loop. -/
inductive Origin (tokens : List Token) (root : Path) (program : Expr) : Path × Expr → Prop
  | introduced {ts : List Token} {q : Path} {e : Expr} (hts : ts ⊆ tokens) (h : Introduced ts e) :
    Origin tokens root program (q, e)
  | declared {ts : List Token} {q : Path} {s : Signature} (hts : ts ⊆ tokens) (h : Heading ts s) :
    Origin tokens root program (q, declarationOf s)
  | supplied {t : Token} {p q : Path} {e loop : Expr} (ht : t ∈ tokens) (hl : t.loc = e.loc)
    (hd : e.isDeclaration = false) (hn : (p, loop) ∈ nodes root program) (hs : Supplies p loop q t) :
    Origin tokens root program (q, e)

/-- The token of a node is one of those that introduce it. -/
theorem exists_introducing {ts : List Token} {e : Expr} (h : Introduced ts e) : ∃ t ∈ ts, t.Introduces e := by
  cases h with
  | leading ht _ _ => exact ⟨_, List.mem_cons_self, ht⟩
  | binary _ ht _ => exact ⟨_, List.mem_append_right _ List.mem_cons_self, ht⟩
  | letIn hw _ _ _ => exact ⟨_, List.mem_cons_self, hw⟩
  | block ht _ => exact ⟨_, List.mem_cons_self, ht⟩
  | rangeLoop hw _ _ _ _ _ => exact ⟨_, List.mem_cons_self, rfl, hw⟩
  | countingLoop hw _ _ => exact ⟨_, List.mem_cons_self, rfl, hw⟩

theorem Origin.located {n : Path × Expr} (h : Origin tokens root program n) : Located tokens root program n := by
  cases h with
  | introduced hts h =>
    obtain ⟨t, ht, hintroduces⟩ := exists_introducing h
    exact ⟨t, hts ht, hintroduces.1, .inl hintroduces⟩
  | declared hts h =>
    cases h with
    | mk hw _ _ _ => exact ⟨_, hts List.mem_cons_self, hw.1, .inl hw⟩
  | supplied ht hl hd hn hs => exact ⟨_, ht, hl, .inr ⟨hd, _, _, hn, hs⟩⟩

/-- A literal has an origin of its own. -/
theorem Origin.literal {t : Token} {q : Path} {loc : Location} {value : Literal} (ht : t ∈ tokens)
    (h : t.Introduces (literal loc value)) : Origin tokens root program (q, literal loc value) :=
  .introduced (List.cons_subset.2 ⟨ht, List.nil_subset _⟩) (.leading h rfl .nil)

/-- The nodes of the parts of a node of a tree are nodes of the tree. -/
theorem nodesOf_children_subset {e : Expr} (h : (p, e) ∈ nodes root program) :
    nodesOf p 0 e.children ⊆ nodes root program := by
  intro n hn
  refine nodes_trans h ?_
  rw [nodes]
  exact .tail _ hn

section
variable {word start stop : Token} {var : Text} {a b : Bound} {step : Option Expr} {body : Expr}

theorem rangeStep_downwards {loc : Location} {amount : Expr} (h : runsUpwards a b = false) :
    rangeStep loc a b (some amount) = unary loc .subtract amount := by
  simp [rangeStep, h]

/-- The amount is a node of its own, the operand of a sign, or one that is given. -/
theorem origin_rangeStep (hw : word.kind = .forWord) (hword : word ∈ tokens) (hb : Grammar.Bounds stop b)
    (hstop : stop ∈ tokens) (hn : (p, rangeLoop word.loc var a b step body) ∈ nodes root program)
    (hs : ∀ {q : Path} {i : Nat}, nodesOf q i step.toList ⊆ nodes root program →
      ∀ n ∈ nodesOf q i step.toList, Origin tokens root program n) :
    ∀ n ∈ nodes (1 :: 2 :: p) (rangeStep word.loc a b step), Origin tokens root program n := by
  have hstep : (2 :: p, _) ∈ nodes root program := part_mem_nodes hn rfl
  have hamount : (1 :: 2 :: p, _) ∈ nodes root program := part_mem_nodes hstep rfl
  cases step with
  | none => exact all_nodes (.supplied hstop hb.introduces.1 rfl hn (.one hb)) all_nil
  | some amount =>
    cases hup : runsUpwards a b with
    | true =>
      have hstated : rangeStep word.loc a b (some amount) = amount := by simp [rangeStep, hup]
      rw [hstated] at hamount ⊢
      intro n hm
      refine hs (q := 2 :: p) (i := 1) ?_ n (by simpa [nodesOf] using hm)
      intro m hm
      exact nodes_trans hamount (by simpa [nodesOf] using hm)
    | false =>
      rw [rangeStep_downwards hup] at hamount ⊢
      exact all_nodes (.supplied hword rfl rfl hn (.sign hw hup)) (hs (nodesOf_children_subset hamount))

theorem origin_rangeLoop (hw : word.kind = .forWord) (hword : word ∈ tokens) (ha : Grammar.Bounds start a)
    (hstart : start ∈ tokens) (hb : Grammar.Bounds stop b) (hstop : stop ∈ tokens)
    (hloop : Origin tokens root program (p, rangeLoop word.loc var a b step body))
    (hn : (p, rangeLoop word.loc var a b step body) ∈ nodes root program)
    (hs : ∀ {q : Path} {i : Nat}, nodesOf q i step.toList ⊆ nodes root program →
      ∀ n ∈ nodesOf q i step.toList, Origin tokens root program n)
    (hbody : ∀ n ∈ nodes (3 :: p) body, Origin tokens root program n) :
    ∀ n ∈ nodes p (rangeLoop word.loc var a b step body), Origin tokens root program n := by
  have hbinding : ∀ n ∈ nodes (0 :: p) (letIn a.loc var (literal a.loc a.value.literal)),
      Origin tokens root program n :=
    all_nodes (.supplied hstart ha.introduces.1 rfl hn (.start ha (by simp)))
      (all_cons (all_nodes (.literal hstart ha.introduces) all_nil) all_nil)
  have htest : ∀ n ∈ nodes (1 :: p) (binary b.loc (if runsUpwards a b then .less else .greater) (name a.loc var)
      (literal b.loc b.value.literal)), Origin tokens root program n :=
    all_nodes (.supplied hstop hb.introduces.1 rfl hn (.stop hb (by simp)))
      (all_cons (all_nodes (.supplied hstart ha.introduces.1 rfl hn (.start ha (by simp))) all_nil)
        (all_cons (all_nodes (.literal hstop hb.introduces) all_nil) all_nil))
  have hstep : ∀ n ∈ nodes (2 :: p) (binary b.loc .addAssign (name b.loc var) (rangeStep word.loc a b step)),
      Origin tokens root program n :=
    all_nodes (.supplied hstop hb.introduces.1 rfl hn (.stop hb (by simp)))
      (all_cons (all_nodes (.supplied hstop hb.introduces.1 rfl hn (.stop hb (by simp))) all_nil)
        (all_cons (origin_rangeStep hw hword hb hstop hn hs) all_nil))
  exact all_nodes hloop (all_cons hbinding (all_cons htest (all_cons hstep (all_cons hbody all_nil))))

theorem origin_countingLoop {count : Expr} (hw : word.kind = .forWord) (hword : word ∈ tokens)
    (hloop : Origin tokens root program (p, countingLoop word.loc count body))
    (hn : (p, countingLoop word.loc count body) ∈ nodes root program)
    (hcount : ∀ n ∈ nodes (1 :: 1 :: p) count, Origin tokens root program n)
    (hbody : ∀ n ∈ nodes (3 :: p) body, Origin tokens root program n) :
    ∀ n ∈ nodes p (countingLoop word.loc count body), Origin tokens root program n := by
  have supplied : ∀ {q e}, e.loc = word.loc → e.isDeclaration = false →
      q ∈ [0 :: p, 0 :: 0 :: p, 1 :: p, 0 :: 1 :: p, 2 :: p, 0 :: 2 :: p, 1 :: 2 :: p] →
      Origin tokens root program (q, e) :=
    fun hl hd hq => .supplied hword hl.symm hd hn (.counting hw hq)
  have hbinding : ∀ n ∈ nodes (0 :: p) (letIn word.loc countingVariable (literal word.loc (.int 0))),
      Origin tokens root program n :=
    all_nodes (supplied rfl rfl (by simp))
      (all_cons (all_nodes (supplied rfl rfl (by simp)) all_nil) all_nil)
  have htest : ∀ n ∈ nodes (1 :: p) (binary word.loc .less (name word.loc countingVariable) count),
      Origin tokens root program n :=
    all_nodes (supplied rfl rfl (by simp))
      (all_cons (all_nodes (supplied rfl rfl (by simp)) all_nil) (all_cons hcount all_nil))
  have hstep : ∀ n ∈ nodes (2 :: p) (binary word.loc .addAssign (name word.loc countingVariable)
      (literal word.loc (.int 1))), Origin tokens root program n :=
    all_nodes (supplied rfl rfl (by simp))
      (all_cons (all_nodes (supplied rfl rfl (by simp)) all_nil)
        (all_cons (all_nodes (supplied rfl rfl (by simp)) all_nil) all_nil))
  exact all_nodes hloop (all_cons hbinding (all_cons htest (all_cons hstep (all_cons hbody all_nil))))

end

theorem origin_declaration {ts : List Token} {s : Signature} (h : Heading ts s) (hts : ts ⊆ tokens) :
    ∀ n ∈ nodes p (declarationOf s), Origin tokens root program n :=
  all_nodes (.declared hts h) all_nil

/-- The nodes below a block are those of the bodies of its functions and those of its statements. -/
theorem located_children {P : Path × Expr → Prop} {loc : Location} {fs : List Function} {es : List Expr}
    (hn : (p, block loc fs es) ∈ nodes root program)
    (h : ∀ {i j : Nat}, nodesOf p i (fs.map (·.body)) ⊆ nodes root program → nodesOf p j es ⊆ nodes root program →
      (∀ n ∈ nodesOf p i (fs.map (·.body)), P n) ∧ ∀ n ∈ nodesOf p j es, P n) :
    ∀ n ∈ nodesOf p 0 (block loc fs es).children, P n := by
  have hparts := nodesOf_children_subset hn
  rw [children, nodesOf_append] at hparts ⊢
  obtain ⟨hf, he⟩ := List.append_subset.1 hparts
  exact List.forall_mem_append.2 (h hf he)

end Expr

/-! ## Origins of all nodes -/

section
open FrontEnd.Expr
variable {tokens : List Token} {root : Path} {program : Expr}

mutual

theorem Introduced.origin : ∀ {ts : List Token} {e : Expr}, Introduced ts e → ts ⊆ tokens → ∀ {p : Path},
    (p, e) ∈ nodes root program → ∀ n ∈ nodes p e, Origin tokens root program n
  | _, _, .leading ht he hs, hts, _, hn => by
    have hparts := (List.cons_subset.1 hts).2
    exact all_nodes (.introduced hts (.leading ht he hs)) (hs.origin hparts (nodesOf_children_subset hn))
  | _, _, .binary hl ht hr, hts, _, hn => by
    obtain ⟨hls, hrest⟩ := List.append_subset.1 hts
    have hrs := (List.cons_subset.1 hrest).2
    exact all_nodes (.introduced hts (.binary hl ht hr)) (all_cons (hl.origin hls (part_mem_nodes hn rfl))
      (all_cons (hr.origin hrs (part_mem_nodes hn rfl)) all_nil))
  | _, _, .letIn hw hid hs hv, hts, _, hn => by
    obtain ⟨-, hrest⟩ := List.cons_subset.1 hts
    obtain ⟨-, hrest⟩ := List.cons_subset.1 hrest
    obtain ⟨-, hrest⟩ := List.cons_subset.1 hrest
    exact all_nodes (.introduced hts (.letIn hw hid hs hv))
      (all_cons (hv.origin hrest (part_mem_nodes hn rfl)) all_nil)
  | _, _, .block ht hs, hts, _, hn => by
    have hparts := (List.cons_subset.1 hts).2
    exact all_nodes (.introduced hts (.block ht hs)) (located_children hn (hs.origin_parts hparts))
  | _, _, .rangeLoop hw hid ha hb hs hbody, hts, _, hn => by
    obtain ⟨hword, hrest⟩ := List.cons_subset.1 hts
    obtain ⟨-, hrest⟩ := List.cons_subset.1 hrest
    obtain ⟨hstart, hrest⟩ := List.cons_subset.1 hrest
    obtain ⟨hstop, hrest⟩ := List.cons_subset.1 hrest
    obtain ⟨hss, hbs⟩ := List.append_subset.1 hrest
    exact origin_rangeLoop hw hword ha hstart hb hstop (.introduced hts (.rangeLoop hw hid ha hb hs hbody)) hn
      (hs.origin hss) (hbody.origin hbs (part_mem_nodes hn rfl))
  | _, _, .countingLoop hw hc hb, hts, _, hn => by
    obtain ⟨hword, hrest⟩ := List.cons_subset.1 hts
    obtain ⟨hcs, hbs⟩ := List.append_subset.1 hrest
    exact origin_countingLoop hw hword (.introduced hts (.countingLoop hw hc hb)) hn
      (hc.origin hcs (part_mem_nodes (part_mem_nodes hn rfl) rfl)) (hb.origin hbs (part_mem_nodes hn rfl))

theorem IntroducedAll.origin : ∀ {ts : List Token} {es : List Expr}, IntroducedAll ts es → ts ⊆ tokens →
    ∀ {p : Path} {i : Nat}, nodesOf p i es ⊆ nodes root program → ∀ n ∈ nodesOf p i es, Origin tokens root program n
  | _, _, .nil, _, _, _, _ => all_nil
  | _, _, .cons he hs, hts, _, _, hn => by
    obtain ⟨hes, hss⟩ := List.append_subset.1 hts
    rw [nodesOf] at hn
    obtain ⟨hhead, htail⟩ := List.append_subset.1 hn
    exact all_cons (he.origin hes (hhead (self_mem_nodes _ _))) (hs.origin hss htail)

-- The bodies of functions come before all statements, so the two have positions of their own.
theorem IntroducedBlock.origin_parts : ∀ {ts : List Token} {fs : List Function} {es : List Expr},
    IntroducedBlock ts fs es → ts ⊆ tokens → ∀ {p : Path} {i j : Nat},
      nodesOf p i (fs.map (·.body)) ⊆ nodes root program → nodesOf p j es ⊆ nodes root program →
        (∀ n ∈ nodesOf p i (fs.map (·.body)), Origin tokens root program n) ∧
          ∀ n ∈ nodesOf p j es, Origin tokens root program n
  | _, _, _, .nil, _, _, _, _, _, _ => ⟨all_nil, all_nil⟩
  | _, _, _, .function hh hb hr, hts, _, _, _, hf, he => by
    obtain ⟨hhs, hts⟩ := List.append_subset.1 hts
    obtain ⟨hbs, hrs⟩ := List.append_subset.1 hts
    rw [List.map_cons, nodesOf] at hf
    rw [nodesOf] at he
    obtain ⟨hbody, hf⟩ := List.append_subset.1 hf
    obtain ⟨-, he⟩ := List.append_subset.1 he
    obtain ⟨hfs, hes⟩ := hr.origin_parts hrs hf he
    exact ⟨all_cons (hb.origin hbs (hbody (self_mem_nodes _ _))) hfs,
      all_cons (origin_declaration hh hhs) hes⟩
  | _, _, _, .statement he' hr, hts, _, _, _, hf, he => by
    obtain ⟨hes', hrs⟩ := List.append_subset.1 hts
    rw [nodesOf] at he
    obtain ⟨hhead, he⟩ := List.append_subset.1 he
    obtain ⟨hfs, hes⟩ := hr.origin_parts hrs hf he
    exact ⟨hfs, all_cons (he'.origin hes' (hhead (self_mem_nodes _ _))) hes⟩

end

theorem IntroducedBlock.located_parts {ts : List Token} {fs : List Function} {es : List Expr}
    (h : IntroducedBlock ts fs es) (hts : ts ⊆ tokens) {p : Path} {i j : Nat}
    (hf : nodesOf p i (fs.map (·.body)) ⊆ nodes root program) (he : nodesOf p j es ⊆ nodes root program) :
    (∀ n ∈ nodesOf p i (fs.map (·.body)), Located tokens root program n) ∧
      ∀ n ∈ nodesOf p j es, Located tokens root program n := by
  obtain ⟨hbodies, hstatements⟩ := h.origin_parts hts hf he
  exact ⟨fun n hn => (hbodies n hn).located, fun n hn => (hstatements n hn).located⟩

/-- The functions of a program that is well formed stand at their keywords when its nodes are located. -/
theorem Expr.Places.introduced (hprogram : program.WellFormed)
    (h : ∀ n ∈ nodes root program, n.1 ≠ root → Located tokens root program n) {site : Path} {f : Function}
    (hf : Places root program site f) : ∃ t ∈ tokens, t.kind = .funWord ∧ t.loc = f.signature.loc := by
  obtain ⟨k, q, loc, fs, es, rfl, hn, hk⟩ := hf
  have hblock : (block loc fs es).WellFormed := by
    cases hprogram.of_mem_nodes hn with
    | inl hd => cases hd
    | inr hblock => exact hblock
  obtain ⟨j, hj⟩ := List.mem_iff_getElem?.1 (hblock.declaration_mem (List.mem_of_getElem? hk))
  have hdeclaration := part_mem_nodes hn (children_of_statements hj)
  have hne : (fs.length + j) :: q ≠ root := by
    rintro rfl
    exact not_cons_suffix (suffix_of_mem_nodes hn)
  obtain ⟨t, ht, hloc, hintroduces | ⟨hd, -⟩⟩ := h _ hdeclaration hne
  · exact ⟨t, ht, hintroduces.2, hloc⟩
  · cases hd

end

/-! ## Programs -/

/-- A program that is accepted stands at the first token, and the tokens of introducing kinds introduce its functions
and statements in order. So each of its nodes stands at a token, which introduces it or at which it is given to a loop,
and each of its functions stands at the keyword of its declaration. -/
theorem readProgram_introductions {sources : List Source} {program : Expr}
    (h : readProgram (.ofSources sources) = .ok program) (root : Path) :
    let tokens := (TokenStream.ofSources sources).toList
    (∃ first fs es, tokens.head? = some first ∧ program = .block first.loc fs es ∧
      IntroducedBlock (Token.introducing tokens) fs es) ∧
    (∀ n ∈ Expr.nodes root program, n.1 ≠ root → Expr.Located tokens root program n) ∧
    ∀ site f, Expr.Places root program site f → ∃ t ∈ tokens, t.kind = .funWord ∧ t.loc = f.signature.loc := by
  intro tokens
  obtain ⟨first, fs, es, hfirst, rfl, hblock⟩ :=
    ((readProgram_eq_ok_iff (TokenStream.kind_of_mem_ofSources sources) program).1 h).introduced
  have hlocated : ∀ n ∈ Expr.nodes root (.block first.loc fs es), n.1 ≠ root →
      Expr.Located tokens root (.block first.loc fs es) n := by
    intro n hn hne
    rw [Expr.nodes, List.mem_cons] at hn
    rcases hn with rfl | hn
    · exact absurd rfl hne
    · have hsubset : Token.introducing tokens ⊆ tokens := List.filter_subset_self _
      exact Expr.located_children (Expr.self_mem_nodes _ _) (hblock.located_parts hsubset) n hn
  have hwellFormed : (Expr.block first.loc fs es).WellFormed := by
    have hyields := readProgram_yields (.ofSources sources)
    rw [h] at hyields
    exact hyields.1
  exact ⟨⟨first, fs, es, hfirst, rfl, hblock⟩, hlocated, fun _ _ hf => hf.introduced hwellFormed hlocated⟩

/-- A loop that runs downwards by an amount that is stated: the sign it turns the amount round with stands at the
keyword, where there is no operator. -/
theorem readProgram_introductions_downwards :
    let sources : List Source := [⟨"for (i, 3, 0, 2) -i", "m"⟩]
    let amount : Expr := .literal ⟨"m", 1, 15⟩ (.int 2)
    let loop : Expr := Expr.rangeLoop ⟨"m", 1, 1⟩ "i" ⟨⟨"m", 1, 9⟩, .int 3⟩ ⟨⟨"m", 1, 12⟩, .int 0⟩ (some amount)
      (.unary ⟨"m", 1, 18⟩ .subtract (.name ⟨"m", 1, 19⟩ "i"))
    let program : Expr := .block ⟨"m", 1, 1⟩ [] [loop]
    readProgram (.ofSources sources) = .ok program ∧
      Expr.Located (TokenStream.ofSources sources).toList [0] program
        ([1, 2, 0, 0], .unary ⟨"m", 1, 1⟩ .subtract amount) := by
  intro sources amount loop program
  have hread : readProgram (.ofSources sources) = .ok program := by with_unfolding_all rfl
  have hloop : ([0, 0], loop) ∈ Expr.nodes [0] program := Expr.part_mem_nodes (Expr.self_mem_nodes _ _) rfl
  have hstep : ([1, 2, 0, 0], _) ∈ Expr.nodes [0] program := Expr.part_mem_nodes (Expr.part_mem_nodes hloop rfl) rfl
  have hsign : Expr.rangeStep ⟨"m", 1, 1⟩ ⟨⟨"m", 1, 9⟩, .int 3⟩ ⟨⟨"m", 1, 12⟩, .int 0⟩ (some amount) =
    .unary ⟨"m", 1, 1⟩ .subtract amount := by with_unfolding_all rfl
  rw [hsign] at hstep
  exact ⟨hread, (readProgram_introductions hread [0]).2.1 _ hstep (by simp)⟩

end FrontEnd
