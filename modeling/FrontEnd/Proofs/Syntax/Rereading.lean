import FrontEnd.Proofs.Syntax.Recognition
import FrontEnd.Proofs.Syntax.Spelling

/-!
# Reading back what was written

The text of a spellable tree is read as that tree, places aside.

* `Expression.operand`, `Expression.unary`, `Expression.binary` : the derivations of runs of up to three terms;
* `spells_signature`, `spells_enclosed`, `spells_binary`, `spells_call`, … : the tokens of texts that are laid out;
* `Spellable.rereads` : the tokens of a tree's text derive the tree where it stands, by induction on the tree;
* `readProgram_programText` : the same for programs.
-/

namespace FrontEnd

open Grammar Scan

/-! ## Short runs of terms -/

namespace Term
variable {op : Operator} {loc : Location} {e lhs rhs : Expr}

theorem split?_operand (first : Term) : split? first [operand e] = none := by
  simp [split?, Operator.tiersLoosestFirst, splitAtTier?]

theorem split?_operator (first : Term) (h : op.tier ≠ none) :
    split? first [operator op loc, operand e] = some ⟨[first], op, loc, [operand e]⟩ := by
  cases op <;> first | exact absurd rfl h | rfl

theorem resolve_operand : resolve [operand e] = .ok e := by
  rw [resolve]
  simp

theorem resolve_unary (h : op.isUnary) : resolve [operator op loc, operand e] = .ok (.unary loc op e) := by
  rw [resolve.eq_def]
  simp only [ne_eq, List.cons_ne_self, not_false_eq_true, List.getLast_cons, List.getLast_singleton, ↓reduceIte,
    bind_pure_comp, h, resolve_operand, Except.map_ok]
  split
  · next hs => simp [split?_operand] at hs
  · rfl

theorem resolve_binary (h : op.tier ≠ none) :
    resolve [operand lhs, operator op loc, operand rhs] = .ok (.binary loc op lhs rhs) := by
  rw [resolve]
  simp only [ne_eq, reduceCtorEq, not_false_eq_true, List.getLast_cons, List.cons_ne_self, List.getLast_singleton,
    ↓reduceIte, bind_pure_comp]
  split
  · next s hs =>
    rw [split?_operator _ h] at hs
    cases hs
    simp only [resolve_operand]
    rfl
  · next hs => simp [split?_operator _ h] at hs

end Term

namespace Grammar
variable {ts us : List Token} {next : TokenKind} {e lhs rhs : Expr} {sign : Token} {op : Operator}

theorem Expression.operand (h : Operand ts next e) (hn : next.isTerminator) : Expression ts next e := by
  have hterms : Terms (ts ++ []) next [.operand e] := .operand h .nil
  rw [List.append_nil] at hterms
  exact .mk hterms (List.cons_ne_nil _ _) (List.isChain_singleton _) Term.resolve_operand hn

theorem Expression.unary (hs : sign.kind = .operator op) (hop : op.isUnary) (h : Operand ts next e)
    (hn : next.isTerminator) : Expression (sign :: ts) next (.unary sign.loc op e) := by
  have hterms : Terms (sign :: (ts ++ [])) next [.operator op sign.loc, .operand e] := .operator hs (.operand h .nil)
  rw [List.append_nil] at hterms
  exact .mk hterms (List.cons_ne_nil _ _) (by simp [Term.Separated, Term.isOperand]) (Term.resolve_unary hop) hn

theorem Expression.binary (hl : Operand ts (.operator op) lhs) (hs : sign.kind = .operator op) (hop : op.tier ≠ none)
    (hr : Operand us next rhs) (hn : next.isTerminator) :
    Expression (ts ++ sign :: us) next (.binary sign.loc op lhs rhs) := by
  have hterms : Terms (ts ++ sign :: (us ++ [])) next [.operand lhs, .operator op sign.loc, .operand rhs] :=
    .operand (by rw [front_cons, hs]; exact hl) (.operator hs (.operand hr .nil))
  rw [List.append_nil] at hterms
  exact .mk hterms (List.cons_ne_nil _ _) (by simp [Term.Separated, Term.isOperand]) (Term.resolve_binary hop) hn

theorem Parenthesized.statement (h : Parenthesized ts e) (hn : next.isTerminator) : Statement ts next e := by
  refine .expression (.operand (.parenthesized h) hn) ?_
  rw [h.front_eq]
  rfl

end Grammar

/-! ## Literals and declarations -/

section Declarations
variable {text : Text} {holds : List Token → Prop}

theorem Literal.spells {value : Literal} (hv : value.Spellable) (h : Spells text holds) (hd : Delimited text) :
    Spells (value.text ++ text) (fun ts => ∃ t us, ts = t :: us ∧ Literal.ofToken t = .ok value ∧ holds us) := by
  cases value with
  | int n =>
    obtain ⟨hn, hle⟩ := hv
    obtain ⟨m, rfl⟩ := Int.eq_ofNat_of_zero_le hn
    refine (h.number m hd).mono ?_
    rintro ts ⟨t, us, rfl, hk, ht, hus⟩
    refine ⟨t, us, rfl, ?_, hus⟩
    have hle : m ≤ greatestInt := by exact_mod_cast hle
    simp [Literal.ofToken, hk, ht, Text.digitsValue_ofNat, hle]
  | bool b =>
    cases b with
    | false =>
      refine (h.word (w := "false") (by decide) hd).mono ?_
      rintro ts ⟨t, us, rfl, hk, ht, hus⟩
      exact ⟨t, us, rfl, by rw [Literal.ofToken, hk, ht]; rfl, hus⟩
    | true =>
      refine (h.word (w := "true") (by decide) hd).mono ?_
      rintro ts ⟨t, us, rfl, hk, ht, hus⟩
      exact ⟨t, us, rfl, by rw [Literal.ofToken, hk, ht]; rfl, hus⟩
  | char c =>
    have hquote : '\'' = '"' ∨ '\'' = '\'' := .inr rfl
    refine (h.quoted hquote (Quoted.closed_oneLine hquote [c]) (Quoted.quotedLength_closed hquote [c])).mono ?_
    rintro ts ⟨t, us, rfl, hk, ht, hus⟩
    refine ⟨t, us, rfl, ?_, hus⟩
    rw [if_neg (by decide)] at hk
    simp [Literal.ofToken, hk, ht, Quoted.decode_closed hquote, bind, Except.bind, pure, Except.pure]
  | str s =>
    have hquote : '"' = '"' ∨ '"' = '\'' := .inl rfl
    refine (h.quoted hquote (Quoted.closed_oneLine hquote s) (Quoted.quotedLength_closed hquote s)).mono ?_
    rintro ts ⟨t, us, rfl, hk, ht, hus⟩
    refine ⟨t, us, rfl, ?_, hus⟩
    rw [if_pos rfl] at hk
    simp [Literal.ofToken, hk, ht, Quoted.decode_closed hquote, bind, Except.bind, pure, Except.pure]
  | float | unit => exact hv.elim

theorem spells_identifier {word : Text} (hw : IsIdentifier word) (h : Spells text holds) (hd : Delimited text) :
    Spells (word ++ text) (fun ts => ∃ t us, ts = t :: us ∧ t.kind = .identifier ∧ t.text = word ∧ holds us) := by
  have hword := h.word hw.1 hd
  rwa [hw.2] at hword

theorem spells_keyword {ty : Ty} (hty : ty ≠ .any) (h : Spells text holds) (hd : Delimited text) :
    Spells (ty.keyword ++ text) (fun ts => ∃ t us, ts = t :: us ∧ Names t ty ∧ holds us) := by
  have hkeyword : isWord ty.keyword ∧ wordKind ty.keyword = .typeName ∧ Ty.ofKeyword? ty.keyword = some ty := by
    cases ty <;> first | exact absurd rfl hty | decide
  refine (h.word hkeyword.1 hd).mono ?_
  rintro ts ⟨t, us, rfl, hk, ht, hus⟩
  exact ⟨t, us, rfl, ⟨hk.trans hkeyword.2.1, ht ▸ hkeyword.2.2⟩, hus⟩

theorem spells_parameter {param : Text × Ty} (hp : IsIdentifier param.1 ∧ param.2 ≠ .any) (h : Spells text holds)
    (hd : Delimited text) :
    Spells (Signature.parameterText param ++ text) (fun ts => ∃ id colon type us, ts = id :: colon :: type :: us ∧
      id.kind = .identifier ∧ id.text = param.1 ∧ colon.kind = .colon ∧ Names type param.2 ∧ holds us) := by
  have htext : Signature.parameterText param ++ text = param.1 ++ ':' :: ' ' :: (param.2.keyword ++ text) := by
    simp [Signature.parameterText]
  rw [htext]
  have htype := (spells_keyword hp.2 h hd).blank.mark ':' .colon (by decide)
  refine (spells_identifier hp.1 htype (.cons (by decide))).mono ?_
  rintro ts ⟨id, _, rfl, hid, hname, colon, _, rfl, hc, type, us, rfl, ht, hus⟩
  exact ⟨id, colon, type, us, rfl, hid, hname, hc, ht, hus⟩

theorem spells_parameters {params : List (Text × Ty)} (hp : ∀ param ∈ params, IsIdentifier param.1 ∧ param.2 ≠ .any)
    (h : Spells text holds) :
    Spells (Text.joined ", " (params.map Signature.parameterText) ++ ')' :: text) (fun ts => ∃ us closing vs,
      ts = us ++ closing :: vs ∧ Parameters us params ∧ closing.kind = .rightParen ∧ holds vs) := by
  have hclosing := h.mark ')' .rightParen (by decide)
  induction params with
  | nil =>
    refine hclosing.mono ?_
    rintro ts ⟨closing, vs, rfl, hc, hvs⟩
    exact ⟨[], closing, vs, rfl, .nil, hc, hvs⟩
  | cons param params ih =>
    obtain ⟨x, ty⟩ := param
    have hparam := hp (x, ty) List.mem_cons_self
    have ih := ih fun q hq => hp q (List.mem_cons_of_mem _ hq)
    cases params with
    | nil =>
      rw [List.map_singleton, Text.joined_singleton]
      refine (spells_parameter hparam hclosing (.cons (by decide))).mono ?_
      rintro ts ⟨id, colon, type, _, rfl, hid, rfl, hc, ht, closing, vs, rfl, hclose, hvs⟩
      exact ⟨[id, colon, type], closing, vs, rfl, .last hid hc ht, hclose, hvs⟩
    | cons param' params =>
      have htext : Text.joined ", " (((x, ty) :: param' :: params).map Signature.parameterText) ++ ')' :: text =
          Signature.parameterText (x, ty) ++ ',' :: ' ' ::
            (Text.joined ", " ((param' :: params).map Signature.parameterText) ++ ')' :: text) := by
        simp [Text.joined_cons_cons]
      rw [htext]
      refine (spells_parameter hparam (ih.blank.mark ',' .comma (by decide)) (.cons (by decide))).mono ?_
      rintro ts ⟨id, colon, type, _, rfl, hid, rfl, hc, ht, comma, _, rfl, hcomma, us, closing, vs, rfl, hus, hclose,
        hvs⟩
      exact ⟨id :: colon :: type :: comma :: us, closing, vs, rfl, .cons hid hc ht hcomma hus, hclose, hvs⟩

theorem spells_result (ret : Ty) (h : Spells text holds) (hd : Delimited text) :
    Spells (Signature.resultText ret ++ text)
      (fun ts => ∃ us vs, ts = us ++ vs ∧ ReturnType us ret ∧ holds vs) := by
  unfold Signature.resultText
  split
  · next hany =>
    refine h.mono fun ts hts => ⟨[], ts, rfl, ?_, hts⟩
    exact hany ▸ .unstated
  · next hany =>
    have htext : ": " ++ ret.keyword ++ text = ':' :: ' ' :: (ret.keyword ++ text) := by simp
    rw [htext]
    refine ((spells_keyword hany h hd).blank.mark ':' .colon (by decide)).mono ?_
    rintro ts ⟨colon, _, rfl, hc, type, vs, rfl, ht, hvs⟩
    exact ⟨[colon, type], vs, rfl, .stated hc ht, hvs⟩

theorem spells_signature {s : Signature} (hs : s.Spellable) (h : Spells text holds) :
    Spells (s.text ++ text) (fun ts => ∃ us vs signature, ts = us ++ vs ∧ signature.unlocated = s.unlocated ∧
      Header us signature ∧ holds vs) := by
  have htext : s.text ++ text = "fun" ++ ' ' :: (s.name ++ '(' ::
      (Text.joined ", " (s.params.map Signature.parameterText) ++ ')' ::
        (Signature.resultText s.ret ++ ' ' :: (Operator.assign.spelling ++ ' ' :: text)))) := by
    unfold Signature.text
    simp only [List.append_assoc]
    rfl
  rw [htext]
  have hsign := (h.blank.operator .assign (.cons (by decide))).blank
  have hparams := spells_parameters hs.params (spells_result s.ret hsign (.cons (by decide)))
  have hname := spells_identifier hs.name (hparams.mark '(' .leftParen (by decide)) (.cons (by decide))
  refine (hname.blank.word (w := "fun") (by decide) (.cons (by decide))).mono ?_
  rintro ts ⟨word, _, rfl, hw, -, id, _, rfl, hid, hname, opening, _, rfl, ho, ps, closing, _, rfl, hp, hc, rs, _, rfl,
    hr, sign, vs, rfl, hsign, hvs⟩
  refine ⟨word :: id :: opening :: (ps ++ closing :: (rs ++ [sign])), vs, ⟨id.text, word.loc, s.params, s.ret⟩, ?_, ?_,
    .mk hw hid ho hp hc hr hsign, hvs⟩
  · simp
  · simp [Signature.unlocated, hname]

end Declarations

/-! ## Layout -/

namespace Expr

section Layout
variable {a b : Text} {holds holds' : List Token → Prop}

theorem delimited_enclosed (a : Text) : Delimited (enclosed a) := .cons (by decide)

theorem spells_enclosed (h : Spells a holds) : Spells (enclosed a) (fun ts => ∃ opening us closing,
    ts = opening :: (us ++ [closing]) ∧ opening.kind = .leftParen ∧ holds us ∧ closing.kind = .rightParen) := by
  have htext : enclosed a = '(' :: (a ++ [')']) := by
    simp [enclosed]
  rw [htext]
  refine ((h.append (Spells.nil.mark ')' .rightParen (by decide))).mark '(' .leftParen (by decide)).mono ?_
  rintro ts ⟨opening, _, rfl, ho, us, _, rfl, hus, closing, _, rfl, hc, rfl⟩
  exact ⟨opening, us, closing, rfl, ho, hus, hc⟩

/-- What would run on into what follows it is in parentheses. -/
theorem spells_enclosed_token {q : Token → Prop}
    (h : ∀ {text : Text} {rest : List Token → Prop}, Spells text rest → Delimited text →
      Spells (a ++ text) (fun ts => ∃ t us, ts = t :: us ∧ q t ∧ rest us)) :
    Spells (enclosed a) (fun ts => ∃ opening t closing, ts = [opening, t, closing] ∧ opening.kind = .leftParen ∧
      q t ∧ closing.kind = .rightParen) := by
  have htext : enclosed a = '(' :: (a ++ [')']) := by
    simp [enclosed]
  rw [htext]
  refine ((h (Spells.nil.mark ')' .rightParen (by decide)) (.cons (by decide))).mark '(' .leftParen (by decide)).mono ?_
  rintro ts ⟨opening, _, rfl, ho, t, _, rfl, ht, closing, _, rfl, hc, rfl⟩
  exact ⟨opening, t, closing, rfl, ho, ht, hc⟩

theorem spells_unary (op : Operator) (h : Spells a holds) (hd : Delimited a) : Spells (unaryText op a)
    (fun ts => ∃ sign us, ts = sign :: us ∧ sign.kind = .operator op ∧ holds us) := h.operator op hd

theorem spells_binary (op : Operator) (h : Spells a holds) (h' : Spells b holds') : Spells (binaryText op a b)
    (fun ts => ∃ us sign vs, ts = us ++ sign :: vs ∧ holds us ∧ sign.kind = .operator op ∧ holds' vs) := by
  have htext : binaryText op a b = a ++ ' ' :: (op.spelling ++ ' ' :: b) := by
    simp [binaryText]
  rw [htext]
  refine (h.append (h'.blank.operator op (.cons (by decide))).blank).mono ?_
  rintro ts ⟨us, _, rfl, hus, sign, vs, rfl, hs, hvs⟩
  exact ⟨us, sign, vs, rfl, hus, hs, hvs⟩

theorem spells_let {var : Text} (hvar : IsIdentifier var) (h : Spells a holds) : Spells (letText var a)
    (fun ts => ∃ word id sign us, ts = word :: id :: sign :: us ∧ word.kind = .letWord ∧ id.kind = .identifier ∧
      id.text = var ∧ sign.kind = .operator .assign ∧ holds us) := by
  have htext : letText var a = "let" ++ ' ' :: (var ++ ' ' :: (Operator.assign.spelling ++ ' ' :: a)) := by
    unfold letText
    simp only [List.append_assoc]
    rfl
  rw [htext]
  have hsign := h.blank.operator .assign (.cons (by decide))
  have hname := spells_identifier hvar hsign.blank (.cons (by decide))
  refine (hname.blank.word (w := "let") (by decide) (.cons (by decide))).mono ?_
  rintro ts ⟨word, _, rfl, hw, -, id, _, rfl, hid, hname, sign, us, rfl, hs, hus⟩
  exact ⟨word, id, sign, us, rfl, hw, hid, hname, hs, hus⟩

theorem spells_tested {word : Text} (hw : isWord word) (h : Spells (enclosed a) holds) (h' : Spells b holds') :
    Spells (testedText word a b)
      (fun ts => ∃ t us vs, ts = t :: (us ++ vs) ∧ t.kind = wordKind word ∧ holds us ∧ holds' vs) := by
  have htext : testedText word a b = word ++ ' ' :: (enclosed a ++ ' ' :: b) := by
    simp [testedText]
  rw [htext]
  refine ((h.append h'.blank).blank.word hw (.cons (by decide))).mono ?_
  rintro ts ⟨t, _, rfl, ht, -, us, vs, rfl, hus, hvs⟩
  exact ⟨t, us, vs, rfl, ht, hus, hvs⟩

theorem spells_if (h : Spells (enclosed a) holds) (h' : Spells b holds') : Spells (ifText a b)
    (fun ts => ∃ word us vs, ts = word :: (us ++ vs) ∧ word.kind = .ifWord ∧ holds us ∧ holds' vs) :=
  spells_tested (by decide) h h'

theorem spells_while (h : Spells (enclosed a) holds) (h' : Spells b holds') : Spells (whileText a b)
    (fun ts => ∃ word us vs, ts = word :: (us ++ vs) ∧ word.kind = .whileWord ∧ holds us ∧ holds' vs) :=
  spells_tested (by decide) h h'

theorem spells_else (h : Spells a holds) : Spells (elseText a)
    (fun ts => ∃ sign us, ts = sign :: us ∧ sign.kind = .elseWord ∧ holds us) := by
  have htext : elseText a = ' ' :: ("else" ++ ' ' :: a) := by
    unfold elseText
    rfl
  rw [htext]
  refine (h.blank.word (w := "else") (by decide) (.cons (by decide))).blank.mono ?_
  rintro ts ⟨sign, us, rfl, hs, -, hus⟩
  exact ⟨sign, us, rfl, hs, hus⟩

theorem spells_braced (h : Spells a holds) : Spells (bracedText a) (fun ts => ∃ opening us closing,
    ts = opening :: (us ++ [closing]) ∧ opening.kind = .leftBrace ∧ holds us ∧ closing.kind = .rightBrace) := by
  have htext : bracedText a = '{' :: ' ' :: (a ++ ['}']) := by
    simp [bracedText]
  rw [htext]
  refine ((h.append (Spells.nil.mark '}' .rightBrace (by decide))).blank.mark '{' .leftBrace (by decide)).mono ?_
  rintro ts ⟨opening, _, rfl, ho, us, _, rfl, hus, closing, _, rfl, hc, rfl⟩
  exact ⟨opening, us, closing, rfl, ho, hus, hc⟩

theorem spells_call {callee : Text} {args : List Text} (hid : IsIdentifier callee)
    (h : Spells (Text.joined ", " args) holds) : Spells (callText callee args)
    (fun ts => ∃ id opening us closing, ts = id :: opening :: (us ++ [closing]) ∧ id.kind = .identifier ∧
      id.text = callee ∧ opening.kind = .leftParen ∧ holds us ∧ closing.kind = .rightParen) := by
  have htext : callText callee args = callee ++ '(' :: (Text.joined ", " args ++ [')']) := by
    simp [callText]
  rw [htext]
  have hargs := (h.append (Spells.nil.mark ')' .rightParen (by decide))).mark '(' .leftParen (by decide)
  refine (spells_identifier hid hargs (.cons (by decide))).mono ?_
  rintro ts ⟨id, _, rfl, hid, hname, opening, _, rfl, ho, us, _, rfl, hus, closing, _, rfl, hc, rfl⟩
  exact ⟨id, opening, us, closing, rfl, hid, hname, ho, hus, hc⟩

theorem spells_ended (h : Spells a holds) (h' : Spells b holds') : Spells (endedText a b)
    (fun ts => ∃ us sep vs, ts = us ++ sep :: vs ∧ holds us ∧ sep.kind = .semicolon ∧ holds' vs) := by
  have htext : endedText a b = a ++ ';' :: ' ' :: b := by
    simp [endedText]
  rw [htext]
  refine (h.append (h'.blank.mark ';' .semicolon (by decide))).mono ?_
  rintro ts ⟨us, _, rfl, hus, sep, vs, rfl, hs, hvs⟩
  exact ⟨us, sep, vs, rfl, hus, hs, hvs⟩

end Layout

/-! ## Trees -/

/-- The tokens derive the tree, which stands at a position. -/
def Stands : Position → List Token → Expr → Prop
  | .statement, ts, e => ∀ next : TokenKind, next.isTerminator → Statement ts next e
  | .expression, ts, e => Parenthesized ts e

/-- The tokens derive the tree, places aside. -/
def Rereads (p : Position) (e : Expr) (ts : List Token) : Prop := ∃ e', e'.unlocated = e.unlocated ∧ Stands p ts e'

theorem Rereads.enclosed {p : Position} {e e' : Expr} {opening closing : Token} {us : List Token}
    (ho : opening.kind = .leftParen) (h : Expression us .rightParen e') (hc : closing.kind = .rightParen)
    (heq : e'.unlocated = e.unlocated) : Rereads p e (opening :: (us ++ [closing])) := by
  have hp : Parenthesized (opening :: (us ++ [closing])) e' := .mk ho h hc
  refine ⟨e', heq, ?_⟩
  cases p with
  | statement => exact fun next hn => hp.statement hn
  | expression => exact hp

theorem Spellable.isDeclaration_eq_false {p : Position} {e : Expr} (h : Spellable p e) : e.isDeclaration = false := by
  cases h <;> rfl

/-- One more pair of parentheses makes no difference. -/
theorem spells_condition {a : Text} {e : Expr} (h : Spells a (Rereads .expression e)) :
    Spells (enclosed a) (Rereads .expression e) := by
  refine (spells_enclosed h).mono ?_
  rintro ts ⟨opening, us, closing, rfl, ho, ⟨e', heq, he⟩, hc⟩
  exact .enclosed ho (.operand (.parenthesized he) rfl) hc heq

theorem Spellable.delimited {e : Expr} (h : Spellable .expression e) : Delimited (e.text .expression) := by
  cases h <;> exact delimited_enclosed _

mutual

theorem Spellable.rereads {p : Position} {e : Expr} (h : Spellable p e) : Spells (e.text p) (Rereads p e) := by
  cases h with
  | literal hv =>
    refine (spells_enclosed_token fun h hd => Literal.spells hv h hd).mono ?_
    rintro ts ⟨opening, t, closing, rfl, ho, ht, hc⟩
    exact .enclosed ho (.operand (.literal ht) rfl) hc rfl
  | @name p loc id hid =>
    refine (spells_enclosed_token (q := fun t => t.kind = .identifier ∧ t.text = id) fun h hd =>
      (spells_identifier hid h hd).mono ?_).mono ?_
    · rintro ts ⟨t, us, rfl, hk, ht, hus⟩
      exact ⟨t, us, rfl, ⟨hk, ht⟩, hus⟩
    · rintro ts ⟨opening, t, closing, rfl, ho, ⟨hk, rfl⟩, hc⟩
      exact .enclosed ho (.operand (.named (.name hk)) rfl) hc rfl
  | unary hop h =>
    refine (spells_enclosed (spells_unary _ h.rereads h.delimited)).mono ?_
    rintro ts ⟨opening, _, closing, rfl, ho, ⟨sign, us, rfl, hs, e', heq, he⟩, hc⟩
    exact .enclosed ho (.unary hs hop (.parenthesized he) rfl) hc (by simp [unlocated, heq])
  | binary hop hl hr =>
    refine (spells_enclosed (spells_binary _ hl.rereads hr.rereads)).mono ?_
    rintro ts ⟨opening, _, closing, rfl, ho, ⟨us, sign, vs, rfl, ⟨e₁, heq₁, he₁⟩, hs, ⟨e₂, heq₂, he₂⟩⟩, hc⟩
    exact .enclosed ho (.binary (.parenthesized he₁) hs hop (.parenthesized he₂) rfl) hc
      (by simp [unlocated, heq₁, heq₂])
  | letIn hvar h =>
    refine (spells_let hvar h.rereads).mono ?_
    rintro ts ⟨word, id, sign, us, rfl, hw, hid, rfl, hs, e', heq, he⟩
    exact ⟨.letIn word.loc id.text e', by simp [unlocated, heq], fun next hn =>
      .binding (.mk hw hid hs (.operand (.parenthesized he) hn))⟩
  | ifThen ht hb =>
    refine (spells_enclosed (spells_if (spells_condition ht.rereads) hb.rereads)).mono ?_
    rintro ts ⟨opening, _, closing, rfl, ho, ⟨word, us, vs, rfl, hw, ⟨e₁, heq₁, he₁⟩, e₂, heq₂, he₂⟩, hc⟩
    -- The parenthesis behind the branch keeps every later `else` away from it.
    have hbranch : Branch (word :: (us ++ vs)) .rightParen (.ifThen word.loc e₁ e₂) :=
      .ifThen hw he₁ (he₂ _ rfl) (by simp)
    exact .enclosed ho (.operand (.branch hbranch) rfl) hc (by simp [unlocated, heq₁, heq₂])
  | ifElse ht hb he =>
    have hif := spells_if (spells_condition ht.rereads) hb.rereads
    refine (spells_enclosed (hif.append (spells_else he.rereads))).mono ?_
    rintro ts ⟨opening, _, closing, rfl, ho, ⟨_, _, rfl, ⟨word, us, vs, rfl, hw, ⟨e₁, heq₁, he₁⟩, e₂, heq₂, he₂⟩, sign,
      ws, rfl, hs, e₃, heq₃, he₃⟩, hc⟩
    have hbranch : Branch (word :: (us ++ (vs ++ sign :: ws))) .rightParen (.ifElse word.loc e₁ e₂ e₃) :=
      .ifElse hw he₁ (he₂ _ rfl) hs (he₃ _ rfl)
    rw [← List.append_assoc us, ← List.cons_append] at hbranch
    exact .enclosed ho (.operand (.branch hbranch) rfl) hc (by simp [unlocated, heq₁, heq₂, heq₃])
  | whileLoop ht hb =>
    refine (spells_while (spells_condition ht.rereads) hb.rereads).mono ?_
    rintro ts ⟨word, us, vs, rfl, hw, ⟨e₁, heq₁, he₁⟩, e₂, heq₂, he₂⟩
    exact ⟨.whileLoop word.loc e₁ e₂, by simp [unlocated, heq₁, heq₂], fun next hn =>
      .whileLoop (.mk hw he₁ (he₂ next hn))⟩
  | @block p loc functions statements h =>
    have hbraced : Spells (bracedText (programText functions statements))
        (fun ts => ∃ e', e'.unlocated = (Expr.block loc functions statements).unlocated ∧ Block ts e') := by
      refine (spells_braced h.rereads).mono ?_
      rintro ts ⟨opening, us, closing, rfl, ho, ⟨fs, es, hfs, hes, h⟩, hc⟩
      exact ⟨.block opening.loc fs es, by simp [unlocated, hfs, hes], .mk ho (h _) hc⟩
    cases p with
    | statement =>
      refine hbraced.mono ?_
      rintro ts ⟨e', heq, he⟩
      exact ⟨e', heq, fun next _ => .block he⟩
    | expression =>
      refine (spells_enclosed hbraced).mono ?_
      rintro ts ⟨opening, us, closing, rfl, ho, ⟨e', heq, he⟩, hc⟩
      exact .enclosed ho (.operand (.block he) rfl) hc heq
  | call hcallee h =>
    refine (spells_enclosed (spells_call hcallee h.rereads)).mono ?_
    rintro ts ⟨opening, _, closing, rfl, ho, ⟨id, opening', us, closing', rfl, hid, rfl, ho', ⟨args, heq, ha⟩, hc'⟩, hc⟩
    exact .enclosed ho (.operand (.named (.call hid ho' ha hc')) rfl) hc (by simp [unlocated, heq])
termination_by sizeOf e

theorem SpellableBlock.rereads {fs : List Function} {es : List Expr} (h : SpellableBlock fs es) :
    Spells (programText fs es) (fun ts => ∃ fs' es', unlocatedFunctions fs' = unlocatedFunctions fs ∧
      unlocatedAll es' = unlocatedAll es ∧ ∀ next, Statements ts next fs' es') := by
  cases h with
  | nil =>
    refine Spells.nil.mono ?_
    rintro ts rfl
    exact ⟨[], [], rfl, rfl, fun next => .nil⟩
  | function hs hb hr =>
    refine (spells_ended (spells_signature hs hb.rereads) hr.rereads).mono ?_
    rintro ts ⟨_, sep, vs, rfl, ⟨hs, us, signature, rfl, heq, hh, body, hbody, hb⟩, hsep, fs', es', hfs, hes, hr⟩
    refine ⟨⟨signature, body⟩ :: fs', Expr.declarationOf signature :: es', ?_, ?_, fun next => ?_⟩
    · simp [unlocatedFunctions, heq, hbody, hfs]
    · simp [unlocatedAll, unlocated, declarationOf, hes, show signature.name = _ from (Signature.mk.inj heq).1]
    · exact .function (.mk hh (hb _ (by rw [List.singleton_append, front_cons, hsep]; rfl))) (.present hsep) (hr next)
  | @statement e fs es h hr =>
    have htext : programText fs (e :: es) = endedText (e.text .statement) (programText fs es) := by
      unfold programText
      rw [statementsText, h.isDeclaration_eq_false]
      rfl
    rw [htext]
    refine (spells_ended h.rereads hr.rereads).mono ?_
    rintro ts ⟨us, sep, vs, rfl, ⟨e', heq, he⟩, hsep, fs', es', hfs, hes, hr⟩
    refine ⟨fs', e' :: es', hfs, by simp [unlocatedAll, heq, hes], fun next => ?_⟩
    exact .statement (he _ (by rw [List.singleton_append, front_cons, hsep]; rfl)) (.present hsep) (hr next)
termination_by sizeOf fs + sizeOf es

theorem SpellableArguments.rereads {args : List Expr} (h : SpellableArguments args) :
    Spells (Text.joined ", " (argumentTexts args))
      (fun ts => ∃ args', unlocatedAll args' = unlocatedAll args ∧ Arguments ts args') := by
  cases h with
  | nil =>
    refine Spells.nil.mono ?_
    rintro ts rfl
    exact ⟨[], rfl, .nil⟩
  | @cons e es h hr =>
    cases es with
    | nil =>
      rw [argumentTexts, argumentTexts, Text.joined_singleton]
      refine h.rereads.mono ?_
      rintro ts ⟨e', heq, he⟩
      exact ⟨[e'], by simp [unlocatedAll, heq], .last (.operand (.parenthesized he) rfl)⟩
    | cons e₂ es =>
      have htext : Text.joined ", " (argumentTexts (e :: e₂ :: es)) =
          e.text .expression ++ ',' :: ' ' :: Text.joined ", " (argumentTexts (e₂ :: es)) := by
        simp [argumentTexts, Text.joined_cons_cons]
      rw [htext]
      refine (h.rereads.append (hr.rereads.blank.mark ',' .comma (by decide))).mono ?_
      rintro ts ⟨us, _, rfl, ⟨e', heq, he⟩, comma, vs, rfl, hc, args', hargs, ha⟩
      exact ⟨e' :: args', by simp [unlocatedAll, heq, hargs], .cons (.operand (.parenthesized he) rfl) hc ha⟩
termination_by sizeOf args

end

end Expr

/-- The text of spellable functions and statements is read as the program that is made up of them, places aside. -/
theorem readProgram_programText (name : Text) (loc : Location) {functions : List Function} {statements : List Expr}
    (h : Expr.SpellableBlock functions statements) : ∃ program,
      readProgram (.ofSources [⟨Expr.programText functions statements, name⟩]) = .ok program ∧
        program.unlocated = (Expr.block loc functions statements).unlocated := by
  obtain ⟨fs, es, hfs, hes, hderives⟩ := h.rereads.tokens name
  let source : Source := ⟨Expr.programText functions statements, name⟩
  let stream := TokenStream.ofSources [source]
  have hlist : stream.toList = source.tokens ++ [stream.last] := by
    simp [stream, TokenStream.ofSources, TokenStream.toList]
  have hprogram : Program stream.toList (.block stream.current.loc fs es) := by
    have hfirst := Parse.head?_toList stream
    rw [hlist] at hfirst ⊢
    exact .mk (hderives _) rfl hfirst
  refine ⟨_, (readProgram_eq_ok_iff (TokenStream.kind_of_mem_ofSources [source]) _).2 hprogram, ?_⟩
  simp [Expr.unlocated, hfs, hes]

theorem readProgram_programText_twice :
    let twice : Function :=
      ⟨⟨"twice", {}, [("x", .int)], .any⟩, .binary {} .multiply (.name {} "x") (.literal {} (.int 2))⟩
    let shown : Expr := .ifElse {} (.binary {} .less (.call {} "twice" [.name {} "n"]) (.literal {} (.int 7)))
      (.literal {} (.str "a \"small\" one\n")) (.block {} [] [.unary {} .subtract (.name {} "n")])
    let statements : List Expr := [.letIn {} "n" (.literal {} (.int 3)), .funDecl {} "twice", shown]
    Expr.SpellableBlock [twice] statements ∧
      ∃ program, readProgram (.ofSources [⟨Expr.programText [twice] statements, "twice.ql"⟩]) = .ok program ∧
        program.unlocated = (Expr.block {} [twice] statements).unlocated := by
  intro twice shown statements
  have hn : IsIdentifier "n" := ⟨by decide, by decide⟩
  have hx : IsIdentifier "x" := ⟨by decide, by decide⟩
  have hname : IsIdentifier "twice" := ⟨by decide, by decide⟩
  have hsignature : twice.signature.Spellable := by
    refine ⟨hname, fun param hp => ?_⟩
    obtain rfl := List.mem_singleton.1 hp
    exact ⟨hx, by decide⟩
  have hbody : Expr.Spellable .statement twice.body :=
    .binary (by decide) (.name hx) (.literal ⟨by decide, by decide⟩)
  have hshown : Expr.Spellable .statement shown :=
    .ifElse (.binary (by decide) (.call hname (.cons (.name hn) .nil)) (.literal ⟨by decide, by decide⟩))
      (.literal trivial) (.block (.statement (.unary rfl (.name hn)) .nil))
  have hspellable : Expr.SpellableBlock [twice] statements :=
    .statement (.letIn hn (.literal ⟨by decide, by decide⟩)) (.function hsignature hbody (.statement hshown .nil))
  exact ⟨hspellable, readProgram_programText "twice.ql" {} hspellable⟩

end FrontEnd
