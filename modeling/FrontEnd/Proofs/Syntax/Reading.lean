import FrontEnd.Compile
import FrontEnd.Proofs.Syntax.WellFormed

/-!
# What reading gives

Every phrase of a program is read as a well-formed tree, or refused with a syntax error.

* `Parse.Gives` : a step gives a value with some property, or fails with a syntax error;
* `Parse.Reads` : what the steps that call each other give when they start at a stream, `Parse.reads` : for every
  stream, by induction on its size;
* `Parse.program_gives`, `readProgram_yields` : the same for whole programs.
-/

namespace FrontEnd.Parse
open FrontEnd.Expr (WellFormed isDeclaration declarationOf)

/-- The outcome of a step is a value that is `good`, or a syntax error. -/
def Gives {α : Type} {bound : Nat} (good : α → Prop) : Parse α bound → Prop
  | .ok phrase => good phrase.value
  | .error failure => failure.fault.IsSyntax

section Steps
variable {α β : Type} {m n : Nat} {s : TokenStream} {first : α → Prop} {good : β → Prop}

theorem Gives.bind {x : Parse α m} {f : Phrase α m → Parse β n} (hx : Gives first x)
    (hf : ∀ a rest h, first a → Gives good (f ⟨a, rest, h⟩)) : Gives good (x >>= f) := by
  cases x with
  | ok phrase => exact hf phrase.value phrase.rest phrase.shorter hx
  | error failure => exact hx

theorem gives_liftAt {r : Except Fault α} {f : α → Parse β n} (hr : Yields first r)
    (hf : ∀ a, first a → Gives good (f a)) : Gives good (Parse.liftAt s r >>= f) := by
  cases r with
  | ok a => exact hf a hr
  | error fault => exact hr

theorem gives_refuse (cause : SyntaxError) : Gives good (s.refuse cause : Parse β n) := ⟨_, _, rfl⟩

theorem gives_expect (kind : TokenKind) : Gives (fun _ => True) (s.expect kind) := by
  unfold TokenStream.expect
  split
  · trivial
  · exact gives_refuse _

end Steps

/-! ## Phrases without expressions -/

theorem ne_any_of_ofKeyword? {word : Text} {t : Ty} (h : Ty.ofKeyword? word = some t) : t ≠ .any := by
  rintro rfl
  unfold Ty.ofKeyword? Ty.keywords at h
  simp only [List.map_cons, List.map_nil, List.lookup_cons, List.lookup_nil] at h
  repeat' split at h
  all_goals cases h

section Phrases
variable (s : TokenStream)

theorem typeName_gives : Gives (· ≠ .any) (typeName s) := by
  unfold typeName
  refine (gives_expect _).bind fun token s₁ h₁ _ => ?_
  dsimp only
  split
  · next t ht => exact ne_any_of_ofKeyword? ht
  · exact ⟨_, _, rfl⟩

theorem literal_gives : Gives (fun p => p.2 ≠ .unit) (literal s) := by
  unfold literal
  split
  · exact gives_refuse _
  · dsimp only
    split
    · next value hv => exact Literal.ne_unit_of_ofToken hv
    · exact ⟨_, _, rfl⟩

theorem bound_gives (side : BoundSide) : Gives (fun _ => True) (bound side s) := by
  unfold bound
  refine (literal_gives s).bind fun (loc, value) s₁ h₁ _ => ?_
  have hb : Yields (fun _ => True) (Bound.ofLiteral side loc value) := by
    unfold Bound.ofLiteral
    split
    · trivial
    · exact ⟨_, _, rfl⟩
  exact gives_liftAt hb fun _ _ => trivial

theorem parameters_gives : Gives (fun params => ∀ p ∈ params, p.2 ≠ .any) (parameters s) := by
  have go : ∀ n (s : TokenStream), s.size = n → Gives (fun params => ∀ p ∈ params, p.2 ≠ .any) (parameters s) := by
    intro n
    induction n using Nat.strongRecOn with
    | ind n ih =>
    intro s hn
    rw [parameters]
    split
    · refine (gives_expect _).bind fun id s₁ h₁ _ => ?_
      refine (gives_expect _).bind fun _ s₂ h₂ _ => ?_
      refine (typeName_gives s₂).bind fun t s₃ h₃ ht => ?_
      dsimp only
      split
      · have hle := s₃.size_advance_le
        refine (ih _ (by omega) s₃.advance rfl).bind fun params s₄ h₄ hp => ?_
        exact List.forall_mem_cons.2 ⟨ht, hp⟩
      · exact List.forall_mem_singleton.2 ht
    · exact List.forall_mem_nil _
  exact go _ s rfl

theorem returnType_gives : Gives (fun _ => True) (returnType s) := by
  unfold returnType
  split
  · exact (typeName_gives s.advance).bind fun t s₁ h₁ _ => trivial
  · trivial

theorem signature_gives : Gives (fun signature => ∀ p ∈ signature.params, p.2 ≠ .any) (signature s) := by
  unfold signature
  refine (gives_expect _).bind fun word s₁ h₁ _ => ?_
  refine (gives_expect _).bind fun id s₂ h₂ _ => ?_
  refine (gives_expect _).bind fun _ s₃ h₃ _ => ?_
  refine (parameters_gives s₃).bind fun params s₄ h₄ hp => ?_
  refine (gives_expect _).bind fun _ s₅ h₅ _ => ?_
  refine (returnType_gives s₅).bind fun ret s₆ h₆ _ => ?_
  refine (gives_expect _).bind fun _ s₇ h₇ _ => ?_
  exact hp

end Phrases

/-! ## Statements and expressions -/

/-- What the steps give that start at `s` and call each other for shorter streams. -/
structure Reads (s : TokenStream) : Prop where
  statements : Gives (fun p => ∀ loc, (Expr.block loc p.1 p.2).WellFormed) (statements s)
  statement : Gives WellFormed (statement s)
  function : Gives (fun f => (∀ p ∈ f.signature.params, p.2 ≠ .any) ∧ f.body.WellFormed) (function s)
  rangeLoop : ∀ loc, Gives WellFormed (rangeLoop loc s)
  stepAmount : Gives (fun step => ∀ e ∈ step, WellFormed e) (stepAmount s)
  countingLoop : ∀ loc, Gives WellFormed (countingLoop loc s)
  expression : Gives WellFormed (expression s)
  terms : ∀ afterOperand, Gives (fun run => run ≠ [] ∧ Term.Alternates afterOperand run) (terms afterOperand s)
  parenthesized : Gives WellFormed (parenthesized s)
  arguments : Gives (fun args => ∀ e ∈ args, WellFormed e) (arguments s)

section Calls
variable {s : TokenStream} (ih : ∀ s' : TokenStream, s'.size < s.size → Reads s')
include ih

theorem block_gives : Gives WellFormed (Parse.block s) := by
  rw [Parse.block]
  refine (gives_expect _).bind fun brace s₁ h₁ _ => ?_
  refine (ih s₁ h₁).statements.bind fun (functions, body) s₂ h₂ hb => ?_
  refine (gives_expect _).bind fun _ s₃ h₃ _ => ?_
  exact hb _

theorem branch_gives : Gives WellFormed (branch s) := by
  rw [branch]
  refine (gives_expect _).bind fun word s₁ h₁ _ => ?_
  refine (ih s₁ h₁).parenthesized.bind fun test s₂ h₂ ht => ?_
  refine (ih s₂ (by omega)).statement.bind fun body s₃ h₃ hb => ?_
  dsimp only
  split
  · have hle := s₃.size_advance_le
    refine (ih s₃.advance (by omega)).statement.bind fun orelse s₄ h₄ he => ?_
    exact .ifElse ht hb he
  · exact .ifThen ht hb

theorem whileLoop_gives : Gives WellFormed (Parse.whileLoop s) := by
  rw [Parse.whileLoop]
  refine (gives_expect _).bind fun word s₁ h₁ _ => ?_
  refine (ih s₁ h₁).parenthesized.bind fun test s₂ h₂ ht => ?_
  refine (ih s₂ (by omega)).statement.bind fun body s₃ h₃ hb => ?_
  exact .whileLoop ht hb

theorem letIn_gives : Gives WellFormed (Parse.letIn s) := by
  rw [Parse.letIn]
  refine (gives_expect _).bind fun word s₁ h₁ _ => ?_
  refine (gives_expect _).bind fun id s₂ h₂ _ => ?_
  refine (gives_expect _).bind fun _ s₃ h₃ _ => ?_
  refine (ih s₃ (by omega)).expression.bind fun value s₄ h₄ hv => ?_
  exact .letIn hv

theorem forLoop_gives : Gives WellFormed (Parse.forLoop s) := by
  rw [Parse.forLoop]
  refine (gives_expect _).bind fun word s₁ h₁ _ => ?_
  refine (gives_expect _).bind fun _ s₂ h₂ _ => ?_
  dsimp only
  split
  · exact ((ih s₂ (by omega)).rangeLoop _).bind fun e s₃ h₃ he => he
  · exact ((ih s₂ (by omega)).countingLoop _).bind fun e s₃ h₃ he => he

theorem rangeLoop_gives (loc : Location) : Gives WellFormed (Parse.rangeLoop loc s) := by
  rw [Parse.rangeLoop]
  refine (gives_expect _).bind fun id s₁ h₁ _ => ?_
  refine (gives_expect _).bind fun _ s₂ h₂ _ => ?_
  refine (bound_gives s₂ _).bind fun start s₃ h₃ _ => ?_
  refine (gives_expect _).bind fun _ s₄ h₄ _ => ?_
  refine (bound_gives s₄ _).bind fun stop s₅ h₅ _ => ?_
  refine (ih s₅ (by omega)).stepAmount.bind fun step s₆ h₆ hs => ?_
  refine (gives_expect _).bind fun _ s₇ h₇ _ => ?_
  refine (ih s₇ (by omega)).statement.bind fun body s₈ h₈ hb => ?_
  exact Expr.wellFormed_rangeLoop hs hb

theorem stepAmount_gives : Gives (fun step => ∀ e ∈ step, WellFormed e) (stepAmount s) := by
  rw [stepAmount]
  split
  · next h =>
    have hlt := s.size_advance_lt (by simp [h])
    refine (ih s.advance hlt).expression.bind fun e s₁ h₁ he => ?_
    rintro e' ⟨⟩
    exact he
  · rintro e ⟨⟩

theorem parenthesized_gives : Gives WellFormed (parenthesized s) := by
  rw [parenthesized]
  refine (gives_expect _).bind fun _ s₁ h₁ _ => ?_
  refine (ih s₁ h₁).expression.bind fun e s₂ h₂ he => ?_
  refine (gives_expect _).bind fun _ s₃ h₃ _ => ?_
  exact he

theorem nameOrCall_gives : Gives WellFormed (nameOrCall s) := by
  rw [nameOrCall]
  refine (gives_expect _).bind fun id s₁ h₁ _ => ?_
  dsimp only
  split
  · have hle := s₁.size_advance_le
    refine (ih s₁.advance (by omega)).arguments.bind fun args s₂ h₂ ha => ?_
    refine (gives_expect _).bind fun _ s₃ h₃ _ => ?_
    exact .call ha
  · exact .name

theorem operand_gives : Gives WellFormed (Parse.operand s) := by
  rw [Parse.operand]
  split
  · exact block_gives ih
  · exact branch_gives ih
  · exact parenthesized_gives ih
  iterate 5
    · exact (literal_gives s).bind fun value s₁ h₁ hv => .literal hv
  · exact nameOrCall_gives ih
  · exact gives_refuse _

theorem term_gives (afterOperand : Bool) :
    Gives (fun t => Term.Alternates afterOperand [t]) (term afterOperand s) := by
  rw [term]
  split
  · trivial
  · split
    · exact gives_refuse _
    · next hno =>
      refine (operand_gives ih).bind fun e s₁ h₁ he => ?_
      exact ⟨by simpa using hno, he, trivial⟩

theorem terms_gives (afterOperand : Bool) :
    Gives (fun run => run ≠ [] ∧ Term.Alternates afterOperand run) (terms afterOperand s) := by
  rw [terms]
  refine (term_gives ih afterOperand).bind fun first s₁ h₁ hf => ?_
  dsimp only
  split
  · exact ⟨List.cons_ne_nil _ _, hf⟩
  · refine ((ih s₁ h₁).terms first.isOperand).bind fun rest s₂ h₂ hr => ?_
    refine ⟨List.cons_ne_nil _ _, ?_⟩
    cases first with
    | operand e => exact ⟨hf.1, hf.2.1, hr.2⟩
    | operator op loc => exact hr.2

theorem expression_gives : Gives WellFormed (Parse.expression s) := by
  rw [Parse.expression]
  split
  · exact gives_refuse _
  · refine (terms_gives ih false).bind fun run s₁ h₁ hr => ?_
    exact gives_liftAt (Term.resolve_yields hr.1 hr.2) fun e he => he

theorem countingLoop_gives (loc : Location) : Gives WellFormed (Parse.countingLoop loc s) := by
  rw [Parse.countingLoop]
  refine (expression_gives ih).bind fun count s₁ h₁ hc => ?_
  refine (gives_expect _).bind fun _ s₂ h₂ _ => ?_
  refine (ih s₂ (by omega)).statement.bind fun body s₃ h₃ hb => ?_
  exact Expr.wellFormed_countingLoop hc hb

theorem arguments_gives : Gives (fun args => ∀ e ∈ args, WellFormed e) (arguments s) := by
  rw [arguments]
  split
  · exact List.forall_mem_nil _
  · refine (expression_gives ih).bind fun e s₁ h₁ he => ?_
    have hle := s₁.size_skip_le .comma
    refine (ih (s₁.skip .comma) (by omega)).arguments.bind fun rest s₂ h₂ hr => ?_
    exact List.forall_mem_cons.2 ⟨he, hr⟩

theorem statement_gives : Gives WellFormed (statement s) := by
  rw [statement]
  split
  · exact block_gives ih
  · exact whileLoop_gives ih
  · exact forLoop_gives ih
  · exact letIn_gives ih
  · exact branch_gives ih
  · exact expression_gives ih

theorem function_gives :
    Gives (fun f => (∀ p ∈ f.signature.params, p.2 ≠ .any) ∧ f.body.WellFormed) (function s) := by
  rw [function]
  refine (signature_gives s).bind fun signature s₁ h₁ hs => ?_
  refine (ih s₁ h₁).statement.bind fun body s₂ h₂ hb => ?_
  exact ⟨hs, hb⟩

theorem statements_gives : Gives (fun p => ∀ loc, (Expr.block loc p.1 p.2).WellFormed) (statements s) := by
  rw [statements]
  split
  · intro loc
    exact .block (List.forall_mem_nil _) (List.forall_mem_nil _) (List.forall_mem_nil _) rfl
  · split
    · refine (function_gives ih).bind fun f s₁ h₁ hf => ?_
      have hle := s₁.size_skip_le .semicolon
      refine (ih (s₁.skip .semicolon) (by omega)).statements.bind fun (functions, rest) s₂ h₂ hr => ?_
      intro loc
      cases hr loc with
      | block hp hb hs hd =>
        refine .block (List.forall_mem_cons.2 ⟨hf.1, hp⟩) (List.forall_mem_cons.2 ⟨hf.2, hb⟩) ?_ ?_
        · exact List.forall_mem_cons.2 ⟨fun h => (by cases h), hs⟩
        · rw [List.filter_cons_of_pos rfl, hd]
          rfl
    · refine (statement_gives ih).bind fun e s₁ h₁ he => ?_
      have hle := s₁.size_skip_le .semicolon
      refine (ih (s₁.skip .semicolon) (by omega)).statements.bind fun (functions, rest) s₂ h₂ hr => ?_
      intro loc
      cases hr loc with
      | block hp hb hs hd =>
        refine .block hp hb (List.forall_mem_cons.2 ⟨fun _ => he, hs⟩) ?_
        rw [List.filter_cons_of_neg (by simp [he.isDeclaration_eq_false]), hd]

end Calls

theorem reads (s : TokenStream) : Reads s := by
  induction hn : s.size using Nat.strongRecOn generalizing s with
  | ind n ih =>
    have ih : ∀ s' : TokenStream, s'.size < s.size → Reads s' := fun s' h => ih _ (hn ▸ h) s' rfl
    exact ⟨statements_gives ih, statement_gives ih, function_gives ih, rangeLoop_gives ih, stepAmount_gives ih,
      countingLoop_gives ih, expression_gives ih, terms_gives ih, parenthesized_gives ih, arguments_gives ih⟩

theorem program_gives (s : TokenStream) : Gives Expr.IsProgram (program s) := by
  unfold program
  refine (reads s).statements.bind fun (functions, body) s₁ h₁ hb => ?_
  dsimp only
  split
  · exact ⟨hb _, _, _, _, rfl⟩
  · exact ⟨_, _, rfl⟩

end FrontEnd.Parse

namespace FrontEnd

/-- Tokens are read as a program, or refused with a syntax error. -/
theorem readProgram_yields (tokens : TokenStream) : Yields Expr.IsProgram (readProgram tokens) := by
  have h := Parse.program_gives tokens
  unfold readProgram
  cases hp : Parse.program tokens with
  | ok p =>
    rw [hp] at h
    exact h
  | error failure =>
    rw [hp] at h
    exact h

end FrontEnd
