import FrontEnd.Compile
import FrontEnd.Proofs.Syntax.Alike

/-!
# Reading tokens at other places

Reading does not look at places. From streams that are alike every phrase is read as the same tree, or refused for the
same reason, and each node, function and fault has its place from tokens that belong together.

* `Yielded`, `Parse.Gave` : two outcomes are alike, without and with what is left of the streams;
* `Term.Alike`, `Term.resolve_alike` : runs of terms that are alike are resolved into trees that are alike;
* `Parse.ReadsAlike` : what the steps that call each other give when they start at streams that are alike,
  `Parse.readsAlike` : for all such streams, by induction on their size;
* `Parse.program_alike`, `readProgram_alike` : the same for whole programs.
-/

namespace FrontEnd
variable {R : Location → Location → Prop}

/-- Two outcomes are values related by `same`, or faults that are alike. -/
def Yielded {α : Type} (R : Location → Location → Prop) (same : α → α → Prop) :
    Except Fault α → Except Fault α → Prop
  | .ok a, .ok a' => same a a'
  | .error fault, .error fault' => fault.Alike R fault'
  | _, _ => False

theorem Yielded.bind {α β : Type} {first : α → α → Prop} {same : β → β → Prop} {x x' : Except Fault α}
    {f f' : α → Except Fault β} (hx : Yielded R first x x') (hf : ∀ a a', first a a' → Yielded R same (f a) (f' a')) :
    Yielded R same (x >>= f) (x' >>= f') := by
  cases x with
  | ok a =>
    cases x' with
    | ok a' => exact hf a a' hx
    | error _ => exact False.elim hx
  | error _ =>
    cases x' with
    | ok _ => exact False.elim hx
    | error _ => exact hx

/-! ## Runs of terms -/

namespace Term

/-- The same term at another place. -/
inductive Alike (R : Location → Location → Prop) : Term → Term → Prop
  | operand {e e' : Expr} (h : e.Alike R e') : Alike R (.operand e) (.operand e')
  | operator {op : Operator} {loc loc' : Location} (h : R loc loc') : Alike R (.operator op loc) (.operator op loc')

/-- The same split of runs that are alike. -/
structure Split.Alike (R : Location → Location → Prop) (s s' : Split) : Prop where
  left : List.Forall₂ (Term.Alike R) s.left s'.left
  op : s.op = s'.op
  loc : R s.loc s'.loc
  right : List.Forall₂ (Term.Alike R) s.right s'.right

theorem Alike.isOperand {t t' : Term} (h : t.Alike R t') : t.isOperand = t'.isOperand := by
  cases h <;> rfl

/-- A split with one more term in front, on both sides. -/
theorem Split.Alike.cons {t t' : Term} {o o' : Option Split} (ht : t.Alike R t') (h : Option.Rel (Split.Alike R) o o') :
    Option.Rel (Split.Alike R) (o.map fun s => { s with left := t :: s.left })
      (o'.map fun s => { s with left := t' :: s.left }) := by
  cases h with
  | none => exact .none
  | some h => exact .some ⟨.cons ht h.left, h.op, h.loc, h.right⟩

theorem splitAtTier?_alike (tier : Nat) {run run' : List Term} (h : List.Forall₂ (Term.Alike R) run run') :
    Option.Rel (Split.Alike R) (splitAtTier? tier run) (splitAtTier? tier run') := by
  induction h with
  | nil => exact .none
  | cons ht hrest ih =>
    cases ht with
    | operand he => exact Split.Alike.cons (.operand he) ih
    | operator hloc =>
      unfold splitAtTier?
      split
      · exact .some ⟨.nil, rfl, hloc, hrest⟩
      · exact Split.Alike.cons (.operator hloc) ih

theorem split?_alike {first first' : Term} {rest rest' : List Term} (hf : first.Alike R first')
    (hr : List.Forall₂ (Term.Alike R) rest rest') :
    Option.Rel (Split.Alike R) (split? first rest) (split? first' rest') := by
  refine Split.Alike.cons hf ?_
  generalize Operator.tiersLoosestFirst = tiers
  induction tiers with
  | nil => exact .none
  | cons tier tiers ih =>
    rw [List.findSome?_cons, List.findSome?_cons]
    have htier := splitAtTier?_alike tier hr
    cases h : splitAtTier? tier rest <;> cases h' : splitAtTier? tier rest' <;> rw [h, h'] at htier
    · exact ih
    · cases htier
    · cases htier
    · exact htier

theorem getLast_alike {run run' : List Term} (h : List.Forall₂ (Term.Alike R) run run') (hne : run ≠ [])
    (hne' : run' ≠ []) : (run.getLast hne).Alike R (run'.getLast hne') := by
  rw [List.getLast_eq_getElem, List.getLast_eq_getElem]
  have hlast := h.get (i := run.length - 1) (by have := List.length_pos_of_ne_nil hne; omega)
    (by have := List.length_pos_of_ne_nil hne'; have := h.length_eq; omega)
  simpa [h.length_eq] using hlast

section
variable {first : Term} {rest : List Term} {e : Expr} (hl : (first :: rest).getLast (by simp) = operand e)
  (hrest : rest ≠ [])
include hl hrest

theorem resolve_of_split {s : Split} (hs : split? first rest = some s) :
    resolve (first :: rest) = (do
      let lhs ← resolve s.left
      let rhs ← resolve s.right
      return .binary s.loc s.op lhs rhs) := by
  rw [resolve]
  simp only [hl, if_neg hrest]
  split
  · next s' hs' =>
    obtain rfl := Option.some.inj (hs.symm.trans hs')
    rfl
  · next hs' => cases hs.symm.trans hs'

theorem resolve_of_no_split (hs : split? first rest = none) :
    resolve (first :: rest) = (match first, rest with
      | operator op loc, rest =>
        if op.isUnary then do return .unary loc op (← resolve rest) else .error (.parse (.notUnary op) loc)
      | operand _, operator op loc :: _ => .error (.parse (.notBinary op) loc)
      | operand _, _ => .error (.internal .adjacentOperands)) := by
  rw [resolve]
  simp only [hl, if_neg hrest]
  split
  · next s hs' => cases hs.symm.trans hs'
  · cases first with
    | operator op loc => rfl
    | operand e =>
      cases rest with
      | nil => exact absurd rfl hrest
      | cons t rest => cases t <;> rfl

end

theorem resolve_alike {run run' : List Term} (h : List.Forall₂ (Term.Alike R) run run') :
    Yielded R (Expr.Alike R) (resolve run) (resolve run') := by
  induction hn : run.length using Nat.strongRecOn generalizing run run' with
  | ind n ih =>
    cases h with
    | nil =>
      rw [resolve]
      exact .internal
    | @cons first first' rest rest' hf hr =>
      have hlast := getLast_alike (.cons hf hr) (List.cons_ne_nil first rest) (List.cons_ne_nil first' rest')
      generalize hl : (first :: rest).getLast _ = last at hlast
      generalize hl' : (first' :: rest').getLast _ = last' at hlast
      cases hlast with
      | operator hloc =>
        rw [resolve, resolve]
        simp only [hl, hl']
        exact .parse hloc
      | operand he =>
        by_cases hrest : rest = []
        · have hrest' : rest' = [] := by
            rw [hrest] at hr
            exact List.forall₂_nil_left_iff.1 hr
          rw [resolve, resolve]
          simp only [hl, hl', if_pos hrest, if_pos hrest']
          exact he
        have hrest' : rest' ≠ [] := fun h => hrest (by rwa [h, List.forall₂_nil_right_iff] at hr)
        have hsplit := split?_alike hf hr
        cases hs : split? first rest with
        | some s =>
          rw [hs] at hsplit
          generalize hs' : split? first' rest' = o' at hsplit
          cases hsplit with
          | some halike =>
            rw [resolve_of_split hl hrest hs, resolve_of_split hl' hrest' hs', halike.op]
            refine (ih _ (hn ▸ length_left_lt_of_split? hs) halike.left rfl).bind fun lhs lhs' hlhs => ?_
            refine (ih _ (hn ▸ length_right_lt_of_split? hs) halike.right rfl).bind fun rhs rhs' hrhs => ?_
            exact .binary halike.loc hlhs hrhs
        | none =>
          rw [hs] at hsplit
          generalize hs' : split? first' rest' = o' at hsplit
          cases hsplit
          rw [resolve_of_no_split hl hrest hs, resolve_of_no_split hl' hrest' hs']
          cases hf with
          | @operator op loc loc' hloc =>
            dsimp only
            split
            · refine (ih _ (hn ▸ Nat.lt_succ_self _) hr rfl).bind fun operand operand' ho => ?_
              exact .unary hloc ho
            · exact .parse hloc
          | operand _ =>
            cases hr with
            | nil => exact absurd rfl hrest
            | cons ht _ =>
              cases ht with
              | operator hloc => exact .parse hloc
              | operand _ => exact .internal

end Term

/-! ## Steps of reading -/

/-- The same bound of a range, at another place. -/
structure Bound.Alike (R : Location → Location → Prop) (b b' : Bound) : Prop where
  loc : R b.loc b'.loc
  value : b.value = b'.value

namespace Parse

/-- Two steps leave streams that are alike, with values related by `same` or with faults that are alike. -/
def GivesAlike {α : Type} {m n : Nat} (R : Location → Location → Prop) (same : α → α → Prop) :
    Parse α m → Parse α n → Prop
  | .ok phrase, .ok phrase' => same phrase.value phrase'.value ∧ phrase.rest.Alike R phrase'.rest
  | .error failure, .error failure' => failure.fault.Alike R failure'.fault ∧ failure.rest.Alike R failure'.rest
  | _, _ => False

section Steps
variable {α β : Type} {m m' n n' : Nat} {s s' : TokenStream} {first : α → α → Prop} {same : β → β → Prop}

theorem GivesAlike.bind {x : Parse α m} {x' : Parse α m'} {f : Phrase α m → Parse β n}
    {f' : Phrase α m' → Parse β n'} (hx : GivesAlike R first x x')
    (hf : ∀ a a' rest rest' h h', first a a' → rest.Alike R rest' →
      GivesAlike R same (f ⟨a, rest, h⟩) (f' ⟨a', rest', h'⟩)) :
    GivesAlike R same (x >>= f) (x' >>= f') := by
  cases x with
  | ok phrase =>
    cases x' with
    | ok phrase' => exact hf _ _ _ _ phrase.shorter phrase'.shorter hx.1 hx.2
    | error _ => exact False.elim hx
  | error _ =>
    cases x' with
    | ok _ => exact False.elim hx
    | error _ => exact hx

theorem GivesAlike.ite {c c' : Prop} [Decidable c] [Decidable c'] {x y : Parse β n} {x' y' : Parse β n'}
    (hc : c ↔ c') (hx : c → GivesAlike R same x x') (hy : ¬ c → GivesAlike R same y y') :
    GivesAlike R same (if c then x else y) (if c' then x' else y') := by
  by_cases h : c
  · rw [if_pos h, if_pos (hc.1 h)]
    exact hx h
  · rw [if_neg h, if_neg fun h' => h (hc.2 h')]
    exact hy h

theorem givesAlike_liftAt {r r' : Except Fault α} {f : α → Parse β n} {f' : α → Parse β n'} (hs : s.Alike R s')
    (hr : Yielded R first r r') (hf : ∀ a a', first a a' → GivesAlike R same (f a) (f' a')) :
    GivesAlike R same (Parse.liftAt s r >>= f) (Parse.liftAt s' r' >>= f') := by
  cases r with
  | ok a =>
    cases r' with
    | ok a' => exact hf a a' hr
    | error _ => exact False.elim hr
  | error _ =>
    cases r' with
    | ok _ => exact False.elim hr
    | error _ => exact ⟨hr, hs⟩

variable (hs : s.Alike R s')
include hs

theorem givesAlike_refuse (cause : SyntaxError) :
    GivesAlike R same (s.refuse cause : Parse β n) (s'.refuse cause : Parse β n') := by
  unfold TokenStream.refuse
  rw [← hs.atEnd]
  exact ⟨.parse hs.loc, hs⟩

theorem givesAlike_expect (kind : TokenKind) : GivesAlike R (Token.Alike R) (s.expect kind) (s'.expect kind) := by
  unfold TokenStream.expect
  by_cases h : s.kind = kind ∧ s.kind ≠ .endOfInput
  · rw [dif_pos h, dif_pos (hs.kind ▸ h)]
    exact ⟨hs.current, hs.advance⟩
  · rw [dif_neg h, dif_neg (hs.kind ▸ h)]
    exact givesAlike_refuse hs _

end Steps

/-! ## Phrases without expressions -/

theorem ofToken_alike {t t' : Token} (h : t.Alike R t') : Literal.ofToken t = Literal.ofToken t' := by
  unfold Literal.ofToken
  rw [h.kind, h.text]

section Phrases
variable {s s' : TokenStream} (hs : s.Alike R s')
include hs

theorem typeName_alike : GivesAlike R Eq (typeName s) (typeName s') := by
  unfold typeName
  refine (givesAlike_expect hs _).bind fun token token' s₁ s₁' _ _ ht h₁ => ?_
  dsimp only
  rw [← ht.text]
  split
  · exact ⟨rfl, h₁⟩
  · exact ⟨.parse ht.loc, h₁⟩

theorem literal_alike : GivesAlike R (fun p p' => R p.1 p'.1 ∧ p.2 = p'.2) (literal s) (literal s') := by
  unfold literal
  by_cases h : s.kind = .endOfInput
  · rw [dif_pos h, dif_pos (hs.kind ▸ h)]
    exact givesAlike_refuse hs _
  · rw [dif_neg h, dif_neg (hs.kind ▸ h)]
    dsimp only [TokenStream.take]
    rw [← ofToken_alike hs.current]
    split
    · exact ⟨⟨hs.loc, rfl⟩, hs.advance⟩
    · exact ⟨.parse hs.loc, hs.advance⟩

theorem bound_alike (side : BoundSide) : GivesAlike R (Bound.Alike R) (bound side s) (bound side s') := by
  unfold bound
  refine (literal_alike hs).bind fun found found' s₁ s₁' _ _ hv h₁ => ?_
  obtain ⟨loc, value⟩ := found
  obtain ⟨loc', value'⟩ := found'
  obtain ⟨hloc, rfl⟩ := hv
  have hbound : Yielded R (Bound.Alike R) (Bound.ofLiteral side loc value) (Bound.ofLiteral side loc' value) := by
    unfold Bound.ofLiteral
    split
    · exact ⟨hloc, rfl⟩
    · exact .parse hloc
  exact givesAlike_liftAt h₁ hbound fun b b' hb => ⟨hb, h₁⟩

theorem parameters_alike : GivesAlike R Eq (parameters s) (parameters s') := by
  have go : ∀ n (s s' : TokenStream), s.size = n → s.Alike R s' → GivesAlike R Eq (parameters s) (parameters s') := by
    intro n
    induction n using Nat.strongRecOn with
    | ind n ih =>
    intro s s' hn hs
    rw [parameters, parameters]
    refine GivesAlike.ite (by rw [hs.kind]) (fun _ => ?_) fun _ => ⟨rfl, hs⟩
    refine (givesAlike_expect hs _).bind fun id id' s₁ s₁' hlt _ hid h₁ => ?_
    refine (givesAlike_expect h₁ _).bind fun _ _ s₂ s₂' hlt₂ _ _ h₂ => ?_
    refine (typeName_alike h₂).bind fun t t' s₃ s₃' hlt₃ _ ht h₃ => ?_
    dsimp only
    rw [hid.text, ht]
    refine GivesAlike.ite (by rw [h₃.kind]) (fun _ => ?_) fun _ => ⟨rfl, h₃⟩
    have hle := s₃.size_advance_le
    refine (ih _ (by omega) _ _ rfl h₃.advance).bind fun params params' s₄ s₄' _ _ hp h₄ => ?_
    exact ⟨by rw [hp], h₄⟩
  exact go _ s s' rfl hs

theorem returnType_alike : GivesAlike R Eq (returnType s) (returnType s') := by
  unfold returnType
  refine GivesAlike.ite (by rw [hs.kind]) (fun _ => ?_) fun _ => ⟨rfl, hs⟩
  exact (typeName_alike hs.advance).bind fun t t' s₁ s₁' _ _ ht h₁ => ⟨ht, h₁⟩

theorem signature_alike : GivesAlike R (Signature.Alike R) (signature s) (signature s') := by
  unfold signature
  refine (givesAlike_expect hs _).bind fun word word' s₁ s₁' _ _ hword h₁ => ?_
  refine (givesAlike_expect h₁ _).bind fun id id' s₂ s₂' _ _ hid h₂ => ?_
  refine (givesAlike_expect h₂ _).bind fun _ _ s₃ s₃' _ _ _ h₃ => ?_
  refine (parameters_alike h₃).bind fun params params' s₄ s₄' _ _ hp h₄ => ?_
  refine (givesAlike_expect h₄ _).bind fun _ _ s₅ s₅' _ _ _ h₅ => ?_
  refine (returnType_alike h₅).bind fun ret ret' s₆ s₆' _ _ hr h₆ => ?_
  refine (givesAlike_expect h₆ _).bind fun _ _ s₇ s₇' _ _ _ h₇ => ?_
  exact ⟨⟨hid.text, hword.loc, hp, hr⟩, h₇⟩

end Phrases

/-! ## Loops over ranges -/

theorem rangeLoop_alike {loc loc' : Location} {var : Text} {start start' stop stop' : Bound} {step step' : Option Expr}
    {body body' : Expr} (hloc : R loc loc') (hstart : start.Alike R start') (hstop : stop.Alike R stop')
    (hstep : Option.Rel (Expr.Alike R) step step') (hbody : body.Alike R body') :
    (Expr.rangeLoop loc var start stop step body).Alike R (Expr.rangeLoop loc' var start' stop' step' body') := by
  have hupwards : Expr.runsUpwards start stop = Expr.runsUpwards start' stop' := by
    rw [Expr.runsUpwards, Expr.runsUpwards, hstart.value, hstop.value]
  have hamount : (Expr.rangeStep loc start stop step).Alike R (Expr.rangeStep loc' start' stop' step') := by
    unfold Expr.rangeStep
    rw [hupwards, hstart.value]
    cases hstep with
    | none => exact .literal hstop.loc
    | some he =>
      dsimp only
      split
      · exact he
      · exact .unary hloc he
  unfold Expr.rangeLoop
  rw [hupwards, hstart.value, hstop.value]
  exact .forLoop hloc hstart.loc (.literal hstart.loc) (.binary hstop.loc (.name hstart.loc) (.literal hstop.loc))
    (.binary hstop.loc (.name hstop.loc) hamount) hbody

theorem countingLoop_alike {loc loc' : Location} {count count' body body' : Expr} (hloc : R loc loc')
    (hcount : count.Alike R count') (hbody : body.Alike R body') :
    (Expr.countingLoop loc count body).Alike R (Expr.countingLoop loc' count' body') :=
  .forLoop hloc hloc (.literal hloc) (.binary hloc (.name hloc) hcount)
    (.binary hloc (.name hloc) (.literal hloc)) hbody

/-! ## Statements and expressions -/

/-- What the steps give that start at `s` and at `s'` and call each other for shorter streams. -/
structure ReadsAlike (R : Location → Location → Prop) (s s' : TokenStream) : Prop where
  statements : GivesAlike R
    (fun p p' => List.Forall₂ (Function.Alike R) p.1 p'.1 ∧ List.Forall₂ (Expr.Alike R) p.2 p'.2)
    (statements s) (statements s')
  statement : GivesAlike R (Expr.Alike R) (statement s) (statement s')
  function : GivesAlike R (Function.Alike R) (function s) (function s')
  rangeLoop : ∀ loc loc', R loc loc' → GivesAlike R (Expr.Alike R) (rangeLoop loc s) (rangeLoop loc' s')
  stepAmount : GivesAlike R (Option.Rel (Expr.Alike R)) (stepAmount s) (stepAmount s')
  countingLoop : ∀ loc loc', R loc loc' → GivesAlike R (Expr.Alike R) (countingLoop loc s) (countingLoop loc' s')
  expression : GivesAlike R (Expr.Alike R) (expression s) (expression s')
  terms : ∀ afterOperand, GivesAlike R (List.Forall₂ (Term.Alike R)) (terms afterOperand s) (terms afterOperand s')
  parenthesized : GivesAlike R (Expr.Alike R) (parenthesized s) (parenthesized s')
  arguments : GivesAlike R (List.Forall₂ (Expr.Alike R)) (arguments s) (arguments s')

section Calls
variable {s s' : TokenStream} (hs : s.Alike R s')
  (ih : ∀ t t' : TokenStream, t.size < s.size → t.Alike R t' → ReadsAlike R t t')
include hs ih

theorem block_alike : GivesAlike R (Expr.Alike R) (Parse.block s) (Parse.block s') := by
  rw [Parse.block, Parse.block]
  refine (givesAlike_expect hs _).bind fun brace brace' s₁ s₁' hlt _ hbrace h₁ => ?_
  refine (ih s₁ s₁' hlt h₁).statements.bind fun parts parts' s₂ s₂' _ _ hp h₂ => ?_
  refine (givesAlike_expect h₂ _).bind fun _ _ s₃ s₃' _ _ _ h₃ => ?_
  exact ⟨.block hbrace.loc hp.1 hp.2, h₃⟩

theorem branch_alike : GivesAlike R (Expr.Alike R) (branch s) (branch s') := by
  rw [branch, branch]
  refine (givesAlike_expect hs _).bind fun word word' s₁ s₁' hlt _ hword h₁ => ?_
  refine (ih s₁ s₁' hlt h₁).parenthesized.bind fun test test' s₂ s₂' hlt₂ _ ht h₂ => ?_
  refine (ih s₂ s₂' (by omega) h₂).statement.bind fun body body' s₃ s₃' hlt₃ _ hb h₃ => ?_
  refine GivesAlike.ite (by rw [h₃.kind]) (fun _ => ?_) fun _ => ⟨.ifThen hword.loc ht hb, h₃⟩
  have hle := s₃.size_advance_le
  refine (ih _ _ (by omega) h₃.advance).statement.bind fun orelse orelse' s₄ s₄' _ _ he h₄ => ?_
  exact ⟨.ifElse hword.loc ht hb he, h₄⟩

theorem whileLoop_alike : GivesAlike R (Expr.Alike R) (Parse.whileLoop s) (Parse.whileLoop s') := by
  rw [Parse.whileLoop, Parse.whileLoop]
  refine (givesAlike_expect hs _).bind fun word word' s₁ s₁' hlt _ hword h₁ => ?_
  refine (ih s₁ s₁' hlt h₁).parenthesized.bind fun test test' s₂ s₂' hlt₂ _ ht h₂ => ?_
  refine (ih s₂ s₂' (by omega) h₂).statement.bind fun body body' s₃ s₃' _ _ hb h₃ => ?_
  exact ⟨.whileLoop hword.loc ht hb, h₃⟩

theorem letIn_alike : GivesAlike R (Expr.Alike R) (Parse.letIn s) (Parse.letIn s') := by
  rw [Parse.letIn, Parse.letIn]
  refine (givesAlike_expect hs _).bind fun word word' s₁ s₁' hlt _ hword h₁ => ?_
  refine (givesAlike_expect h₁ _).bind fun id id' s₂ s₂' hlt₂ _ hid h₂ => ?_
  refine (givesAlike_expect h₂ _).bind fun _ _ s₃ s₃' hlt₃ _ _ h₃ => ?_
  refine (ih s₃ s₃' (by omega) h₃).expression.bind fun value value' s₄ s₄' _ _ hv h₄ => ?_
  rw [hid.text]
  exact ⟨.letIn hword.loc hv, h₄⟩

theorem forLoop_alike : GivesAlike R (Expr.Alike R) (Parse.forLoop s) (Parse.forLoop s') := by
  rw [Parse.forLoop, Parse.forLoop]
  refine (givesAlike_expect hs _).bind fun word word' s₁ s₁' hlt _ hword h₁ => ?_
  refine (givesAlike_expect h₁ _).bind fun _ _ s₂ s₂' hlt₂ _ _ h₂ => ?_
  have hreads := ih s₂ s₂' (by omega) h₂
  refine GivesAlike.ite (by rw [h₂.kind, (h₂.token 1).kind]) (fun _ => ?_) fun _ => ?_
  · exact (hreads.rangeLoop _ _ hword.loc).bind fun e e' s₃ s₃' _ _ he h₃ => ⟨he, h₃⟩
  · exact (hreads.countingLoop _ _ hword.loc).bind fun e e' s₃ s₃' _ _ he h₃ => ⟨he, h₃⟩

theorem rangeLoop_phrase_alike {loc loc' : Location} (hloc : R loc loc') :
    GivesAlike R (Expr.Alike R) (Parse.rangeLoop loc s) (Parse.rangeLoop loc' s') := by
  rw [Parse.rangeLoop, Parse.rangeLoop]
  refine (givesAlike_expect hs _).bind fun id id' s₁ s₁' hlt _ hid h₁ => ?_
  refine (givesAlike_expect h₁ _).bind fun _ _ s₂ s₂' hlt₂ _ _ h₂ => ?_
  refine (bound_alike h₂ _).bind fun start start' s₃ s₃' hlt₃ _ hstart h₃ => ?_
  refine (givesAlike_expect h₃ _).bind fun _ _ s₄ s₄' hlt₄ _ _ h₄ => ?_
  refine (bound_alike h₄ _).bind fun stop stop' s₅ s₅' hlt₅ _ hstop h₅ => ?_
  refine (ih s₅ s₅' (by omega) h₅).stepAmount.bind fun step step' s₆ s₆' hlt₆ _ hstep h₆ => ?_
  refine (givesAlike_expect h₆ _).bind fun _ _ s₇ s₇' hlt₇ _ _ h₇ => ?_
  refine (ih s₇ s₇' (by omega) h₇).statement.bind fun body body' s₈ s₈' _ _ hb h₈ => ?_
  rw [hid.text]
  exact ⟨rangeLoop_alike hloc hstart hstop hstep hb, h₈⟩

theorem stepAmount_alike : GivesAlike R (Option.Rel (Expr.Alike R)) (stepAmount s) (stepAmount s') := by
  rw [stepAmount, stepAmount]
  by_cases h : s.kind = .comma
  · rw [dif_pos h, dif_pos (hs.kind ▸ h)]
    have hlt := s.size_advance_lt (by simp [h])
    refine (ih _ _ hlt hs.advance).expression.bind fun e e' s₁ s₁' _ _ he h₁ => ?_
    exact ⟨.some he, h₁⟩
  · rw [dif_neg h, dif_neg (hs.kind ▸ h)]
    exact ⟨.none, hs⟩

theorem parenthesized_alike : GivesAlike R (Expr.Alike R) (parenthesized s) (parenthesized s') := by
  rw [parenthesized, parenthesized]
  refine (givesAlike_expect hs _).bind fun _ _ s₁ s₁' hlt _ _ h₁ => ?_
  refine (ih s₁ s₁' hlt h₁).expression.bind fun e e' s₂ s₂' _ _ he h₂ => ?_
  refine (givesAlike_expect h₂ _).bind fun _ _ s₃ s₃' _ _ _ h₃ => ?_
  exact ⟨he, h₃⟩

theorem nameOrCall_alike : GivesAlike R (Expr.Alike R) (nameOrCall s) (nameOrCall s') := by
  rw [nameOrCall, nameOrCall]
  refine (givesAlike_expect hs _).bind fun id id' s₁ s₁' hlt _ hid h₁ => ?_
  dsimp only
  rw [hid.text]
  refine GivesAlike.ite (by rw [h₁.kind]) (fun _ => ?_) fun _ => ⟨.name hid.loc, h₁⟩
  have hle := s₁.size_advance_le
  refine (ih _ _ (by omega) h₁.advance).arguments.bind fun args args' s₂ s₂' _ _ ha h₂ => ?_
  refine (givesAlike_expect h₂ _).bind fun _ _ s₃ s₃' _ _ _ h₃ => ?_
  exact ⟨.call hid.loc ha, h₃⟩

theorem operand_alike : GivesAlike R (Expr.Alike R) (Parse.operand s) (Parse.operand s') := by
  rw [Parse.operand, Parse.operand, ← hs.kind]
  split
  · exact block_alike hs ih
  · exact branch_alike hs ih
  · exact parenthesized_alike hs ih
  iterate 5
    · refine (literal_alike hs).bind fun found found' s₁ s₁' _ _ hv h₁ => ?_
      obtain ⟨loc, value⟩ := found
      obtain ⟨loc', value'⟩ := found'
      obtain ⟨hloc, rfl⟩ := hv
      exact ⟨.literal hloc, h₁⟩
  · exact nameOrCall_alike hs ih
  · exact givesAlike_refuse hs _

theorem term_alike (afterOperand : Bool) :
    GivesAlike R (Term.Alike R) (term afterOperand s) (term afterOperand s') := by
  rw [term, term]
  split
  · next op hop =>
    rw [hs.kind] at hop
    split
    · next op' hop' =>
      obtain rfl := Option.some.inj (hop.symm.trans hop')
      exact ⟨.operator hs.loc, hs.advance⟩
    · next hop' => cases hop.symm.trans hop'
  · next hop =>
    rw [hs.kind] at hop
    by_cases hafter : afterOperand
    · rw [if_pos hafter, if_pos hafter]
      split
      · next op' hop' => cases hop.symm.trans hop'
      · exact givesAlike_refuse hs _
    · rw [if_neg hafter, if_neg hafter]
      split
      · next op' hop' => cases hop.symm.trans hop'
      · exact (operand_alike hs ih).bind fun e e' s₁ s₁' _ _ he h₁ => ⟨.operand he, h₁⟩

theorem terms_alike (afterOperand : Bool) :
    GivesAlike R (List.Forall₂ (Term.Alike R)) (terms afterOperand s) (terms afterOperand s') := by
  rw [terms, terms]
  refine (term_alike hs ih afterOperand).bind fun first first' s₁ s₁' hlt _ hf h₁ => ?_
  refine GivesAlike.ite (by rw [h₁.kind]) (fun _ => ⟨.cons hf .nil, h₁⟩) fun _ => ?_
  rw [hf.isOperand]
  refine ((ih s₁ s₁' hlt h₁).terms first'.isOperand).bind fun rest rest' s₂ s₂' _ _ hr h₂ => ?_
  exact ⟨.cons hf hr, h₂⟩

theorem expression_alike : GivesAlike R (Expr.Alike R) (Parse.expression s) (Parse.expression s') := by
  rw [Parse.expression, Parse.expression]
  refine GivesAlike.ite (by rw [hs.kind]) (fun _ => givesAlike_refuse hs _) fun _ => ?_
  refine (terms_alike hs ih false).bind fun run run' s₁ s₁' _ _ hr h₁ => ?_
  exact givesAlike_liftAt h₁ (Term.resolve_alike hr) fun e e' he => ⟨he, h₁⟩

theorem countingLoop_phrase_alike {loc loc' : Location} (hloc : R loc loc') :
    GivesAlike R (Expr.Alike R) (Parse.countingLoop loc s) (Parse.countingLoop loc' s') := by
  rw [Parse.countingLoop, Parse.countingLoop]
  refine (expression_alike hs ih).bind fun count count' s₁ s₁' hlt _ hc h₁ => ?_
  refine (givesAlike_expect h₁ _).bind fun _ _ s₂ s₂' hlt₂ _ _ h₂ => ?_
  refine (ih s₂ s₂' (by omega) h₂).statement.bind fun body body' s₃ s₃' _ _ hb h₃ => ?_
  exact ⟨countingLoop_alike hloc hc hb, h₃⟩

theorem arguments_alike : GivesAlike R (List.Forall₂ (Expr.Alike R)) (arguments s) (arguments s') := by
  rw [arguments, arguments]
  refine GivesAlike.ite (by rw [hs.kind]) (fun _ => ⟨.nil, hs⟩) fun _ => ?_
  refine (expression_alike hs ih).bind fun e e' s₁ s₁' hlt _ he h₁ => ?_
  have hle := s₁.size_skip_le .comma
  refine (ih _ _ (by omega) (h₁.skip .comma)).arguments.bind fun rest rest' s₂ s₂' _ _ hr h₂ => ?_
  exact ⟨.cons he hr, h₂⟩

theorem statement_alike : GivesAlike R (Expr.Alike R) (statement s) (statement s') := by
  rw [statement, statement, ← hs.kind]
  split
  · exact block_alike hs ih
  · exact whileLoop_alike hs ih
  · exact forLoop_alike hs ih
  · exact letIn_alike hs ih
  · exact branch_alike hs ih
  · exact expression_alike hs ih

theorem function_alike : GivesAlike R (Function.Alike R) (function s) (function s') := by
  rw [function, function]
  refine (signature_alike hs).bind fun signature signature' s₁ s₁' hlt _ hsig h₁ => ?_
  refine (ih s₁ s₁' hlt h₁).statement.bind fun body body' s₂ s₂' _ _ hb h₂ => ?_
  exact ⟨.mk hsig hb, h₂⟩

theorem statements_alike : GivesAlike R
    (fun p p' => List.Forall₂ (Function.Alike R) p.1 p'.1 ∧ List.Forall₂ (Expr.Alike R) p.2 p'.2)
    (statements s) (statements s') := by
  rw [statements, statements]
  refine GivesAlike.ite (by rw [hs.kind]) (fun _ => ⟨⟨.nil, .nil⟩, hs⟩) fun _ => ?_
  refine GivesAlike.ite (by rw [hs.kind]) (fun _ => ?_) fun _ => ?_
  · refine (function_alike hs ih).bind fun f f' s₁ s₁' hlt _ hf h₁ => ?_
    have hle := s₁.size_skip_le .semicolon
    refine (ih _ _ (by omega) (h₁.skip .semicolon)).statements.bind fun parts parts' s₂ s₂' _ _ hp h₂ => ?_
    rw [hf.signature.name]
    exact ⟨⟨.cons hf hp.1, .cons (.funDecl hf.signature.loc) hp.2⟩, h₂⟩
  · refine (statement_alike hs ih).bind fun e e' s₁ s₁' hlt _ he h₁ => ?_
    have hle := s₁.size_skip_le .semicolon
    refine (ih _ _ (by omega) (h₁.skip .semicolon)).statements.bind fun parts parts' s₂ s₂' _ _ hp h₂ => ?_
    exact ⟨⟨hp.1, .cons he hp.2⟩, h₂⟩

end Calls

theorem readsAlike {s s' : TokenStream} (hs : s.Alike R s') : ReadsAlike R s s' := by
  induction hn : s.size using Nat.strongRecOn generalizing s s' with
  | ind n ih =>
    have ih : ∀ t t' : TokenStream, t.size < s.size → t.Alike R t' → ReadsAlike R t t' :=
      fun t t' h ht => ih _ (hn ▸ h) ht rfl
    exact ⟨statements_alike hs ih, statement_alike hs ih, function_alike hs ih,
      fun _ _ => rangeLoop_phrase_alike hs ih, stepAmount_alike hs ih, fun _ _ => countingLoop_phrase_alike hs ih,
      expression_alike hs ih, terms_alike hs ih, parenthesized_alike hs ih, arguments_alike hs ih⟩

theorem program_alike {s s' : TokenStream} (hs : s.Alike R s') :
    GivesAlike R (Expr.Alike R) (program s) (program s') := by
  unfold program
  refine (readsAlike hs).statements.bind fun parts parts' s₁ s₁' _ _ hp h₁ => ?_
  refine GivesAlike.ite (by rw [h₁.atEnd]) (fun _ => ⟨.block hs.loc hp.1 hp.2, h₁⟩) fun _ => ?_
  rw [h₁.current.text]
  exact ⟨.parse h₁.loc, h₁⟩

end Parse

/-- Streams that are alike hold programs that are alike, or are refused for the same reason at tokens that belong
together. -/
theorem readProgram_alike {s s' : TokenStream} (hs : s.Alike R s') :
    Yielded R (Expr.Alike R) (readProgram s) (readProgram s') := by
  have hprogram := Parse.program_alike hs
  unfold readProgram
  generalize Parse.program s = x at hprogram ⊢
  generalize Parse.program s' = x' at hprogram ⊢
  cases x <;> cases x'
  · exact hprogram.1
  · exact hprogram
  · exact hprogram
  · exact hprogram.1

end FrontEnd
