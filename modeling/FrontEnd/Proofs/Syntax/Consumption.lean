import FrontEnd.Compile
import FrontEnd.Proofs.Syntax.Accepts

/-!
# What reading uses up

Reading uses up tokens in front of it one by one, and stops in front of the mark of the end. It does not look behind
that mark either: where more tokens stand there, all phrases are read in the same way.

* `TokenStream.Leaves` : one stream is left of another, and no mark of the end has been used up between them;
* `TokenStream.Marked` : a stream with its end mark among its tokens, and others behind it;
* `Parse.KeepsMark` : two steps give the same for a stream and for a marked one, and leave both at the same place;
  `Parse.KeepsMarks` : what the steps that call each other do, `Parse.keepsMarks` : for all such streams, by induction
  on their size;
* `Parse.program_leaves`, `Parse.program_marked` : the same for whole programs.
-/

namespace FrontEnd

/-! ## Streams -/

namespace TokenStream

/-- `rest` is what is left of `s` when tokens in front of it have been used up, none of which marks the end. -/
def Leaves (s rest : TokenStream) : Prop := ∃ used, s = rest.prepend used ∧ ∀ t ∈ used, t.kind ≠ .endOfInput

/-- `s` with the token that marks its end among its tokens, and `behind` it others. -/
def marked (s : TokenStream) (behind : List Token) : TokenStream := { s with ahead := s.toList ++ behind }

/-- `s'` is `s` with its end mark among its tokens. -/
def Marked (behind : List Token) (s s' : TokenStream) : Prop := s' = s.marked behind

theorem Leaves.refl (s : TokenStream) : s.Leaves s := ⟨[], rfl, List.forall_mem_nil _⟩

theorem Leaves.trans {s t u : TokenStream} (h : s.Leaves t) (h' : t.Leaves u) : s.Leaves u := by
  obtain ⟨used, rfl, hused⟩ := h
  obtain ⟨used', rfl, hused'⟩ := h'
  exact ⟨used ++ used', (Parse.prepend_append u used used').symm, List.forall_mem_append.2 ⟨hused, hused'⟩⟩

theorem leaves_advance {s : TokenStream} (h : s.kind ≠ .endOfInput) : s.Leaves s.advance :=
  ⟨[s.current], Parse.eq_prepend_of_kind_ne h, List.forall_mem_singleton.2 h⟩

theorem leaves_skip (s : TokenStream) (k : TokenKind) (hk : k ≠ .endOfInput) : s.Leaves (s.skip k) := by
  unfold skip
  split
  · next h => exact leaves_advance (h ▸ hk)
  · exact .refl s

section
variable {behind : List Token} {s s' : TokenStream} (hs : s.Marked behind s')
include hs

theorem Marked.current : s'.current = s.current := by
  subst hs
  obtain ⟨ahead, endLoc⟩ := s
  cases ahead <;> rfl

theorem Marked.kind : s'.kind = s.kind := congrArg Token.kind hs.current

theorem Marked.loc : s'.loc = s.loc := congrArg Token.loc hs.current

theorem Marked.atEnd : s'.atEnd = s.atEnd := by
  rw [TokenStream.atEnd, TokenStream.atEnd, hs.kind]

theorem Marked.advance (h : s.kind ≠ .endOfInput) : s.advance.Marked behind s'.advance := by
  subst hs
  obtain ⟨ahead, endLoc⟩ := s
  cases ahead with
  | nil => exact absurd rfl h
  | cons t ts => rfl

theorem Marked.skip (k : TokenKind) (hk : k ≠ .endOfInput) : (s.skip k).Marked behind (s'.skip k) := by
  unfold TokenStream.skip
  rw [hs.kind]
  split
  · next h => exact hs.advance (h ▸ hk)
  · exact hs

/-- Only the end mark itself may have a token behind it that is not one of `s`. -/
theorem Marked.token_one (h : s.kind ≠ .endOfInput) : s'.token 1 = s.token 1 := by
  rw [← token_advance, ← token_advance, token_zero, token_zero, (hs.advance h).current]

end
end TokenStream

namespace Parse

/-! ## Steps -/

/-- Two steps, the first of which starts at `s`, give the same. What they leave is the same place of a stream and of
this stream with its end mark, and that mark has not been used up. -/
def KeepsMark {α : Type} {m n : Nat} (s : TokenStream) (behind : List Token) : Parse α m → Parse α n → Prop
  | .ok phrase, .ok phrase' =>
    phrase'.value = phrase.value ∧ s.Leaves phrase.rest ∧ phrase.rest.Marked behind phrase'.rest
  | .error failure, .error failure' =>
    failure'.fault = failure.fault ∧ s.Leaves failure.rest ∧ failure.rest.Marked behind failure'.rest
  | _, _ => False

section Steps
variable {α β : Type} {m m' n n' : Nat} {s s' t : TokenStream} {behind : List Token}

theorem KeepsMark.of_leaves {x : Parse α m} {x' : Parse α m'} (ht : s.Leaves t) (h : KeepsMark t behind x x') :
    KeepsMark s behind x x' := by
  cases x <;> cases x'
  · exact ⟨h.1, ht.trans h.2.1, h.2.2⟩
  · exact False.elim h
  · exact False.elim h
  · exact ⟨h.1, ht.trans h.2.1, h.2.2⟩

theorem KeepsMark.bind {x : Parse α m} {x' : Parse α m'} {f : Phrase α m → Parse β n} {f' : Phrase α m' → Parse β n'}
    (hx : KeepsMark s behind x x')
    (hf : ∀ a rest rest' h h', rest.Marked behind rest' →
      KeepsMark rest behind (f ⟨a, rest, h⟩) (f' ⟨a, rest', h'⟩)) :
    KeepsMark s behind (x >>= f) (x' >>= f') := by
  cases x with
  | ok phrase =>
    cases x' with
    | ok phrase' =>
      obtain ⟨a, rest, h⟩ := phrase
      obtain ⟨a', rest', h'⟩ := phrase'
      obtain ⟨rfl, hrest, hmarked⟩ := hx
      exact .of_leaves hrest (hf _ rest rest' h h' hmarked)
    | error _ => exact False.elim hx
  | error _ =>
    cases x' with
    | ok _ => exact False.elim hx
    | error _ => exact hx

theorem KeepsMark.ite {c c' : Prop} [Decidable c] [Decidable c'] {x y : Parse β n} {x' y' : Parse β n'}
    (hc : c ↔ c') (hx : c → KeepsMark s behind x x') (hy : ¬ c → KeepsMark s behind y y') :
    KeepsMark s behind (if c then x else y) (if c' then x' else y') := by
  by_cases h : c
  · rw [if_pos h, if_pos (hc.1 h)]
    exact hx h
  · rw [if_neg h, if_neg fun h' => h (hc.2 h')]
    exact hy h

variable (hs : s.Marked behind s')
include hs

theorem keepsMark_ok {a : α} (h : s.size < m) (h' : s'.size < m') :
    KeepsMark s behind (.ok ⟨a, s, h⟩ : Parse α m) (.ok ⟨a, s', h'⟩ : Parse α m') :=
  ⟨rfl, .refl s, hs⟩

theorem keepsMark_liftAt {r : Except Fault α} {f : α → Parse β n} {f' : α → Parse β n'}
    (hf : ∀ a, KeepsMark s behind (f a) (f' a)) :
    KeepsMark s behind (Parse.liftAt s r >>= f) (Parse.liftAt s' r >>= f') := by
  cases r with
  | ok a => exact hf a
  | error _ => exact ⟨rfl, .refl s, hs⟩

theorem keepsMark_refuse (cause : SyntaxError) :
    KeepsMark s behind (s.refuse cause : Parse β n) (s'.refuse cause : Parse β n') := by
  refine ⟨?_, .refl s, hs⟩
  show Fault.parse _ _ = Fault.parse _ _
  rw [hs.atEnd, hs.loc]

theorem keepsMark_expect (kind : TokenKind) : KeepsMark s behind (s.expect kind) (s'.expect kind) := by
  unfold TokenStream.expect
  by_cases h : s.kind = kind ∧ s.kind ≠ .endOfInput
  · rw [dif_pos h, dif_pos (hs.kind.symm ▸ h)]
    exact ⟨hs.current, TokenStream.leaves_advance h.2, hs.advance h.2⟩
  · rw [dif_neg h, dif_neg (hs.kind.symm ▸ h)]
    exact keepsMark_refuse hs _

end Steps

/-! ## Phrases without expressions -/

section Phrases
variable {behind : List Token} {s s' : TokenStream} (hs : s.Marked behind s')
include hs

theorem typeName_keepsMark : KeepsMark s behind (typeName s) (typeName s') := by
  unfold typeName
  refine (keepsMark_expect hs _).bind fun token s₁ s₁' _ _ h₁ => ?_
  dsimp only
  split
  · exact keepsMark_ok h₁ _ _
  · exact ⟨rfl, .refl s₁, h₁⟩

theorem literal_keepsMark : KeepsMark s behind (literal s) (literal s') := by
  unfold literal
  by_cases h : s.kind = .endOfInput
  · rw [dif_pos h, dif_pos (hs.kind.trans h)]
    exact keepsMark_refuse hs _
  · rw [dif_neg h, dif_neg (hs.kind.symm ▸ h)]
    dsimp only [TokenStream.take]
    rw [hs.current]
    split
    · exact ⟨rfl, TokenStream.leaves_advance h, hs.advance h⟩
    · exact ⟨rfl, TokenStream.leaves_advance h, hs.advance h⟩

theorem bound_keepsMark (side : BoundSide) : KeepsMark s behind (bound side s) (bound side s') := by
  unfold bound
  refine (literal_keepsMark hs).bind fun found s₁ s₁' _ _ h₁ => ?_
  exact keepsMark_liftAt h₁ fun b => keepsMark_ok h₁ _ _

theorem parameters_keepsMark : KeepsMark s behind (parameters s) (parameters s') := by
  have go : ∀ n (s s' : TokenStream), s.size = n → s.Marked behind s' →
      KeepsMark s behind (parameters s) (parameters s') := by
    intro n
    induction n using Nat.strongRecOn with
    | ind n ih =>
    intro s s' hn hs
    rw [parameters, parameters]
    refine KeepsMark.ite (by rw [hs.kind]) (fun _ => ?_) fun _ => keepsMark_ok hs _ _
    refine (keepsMark_expect hs _).bind fun id s₁ s₁' hlt _ h₁ => ?_
    refine (keepsMark_expect h₁ _).bind fun _ s₂ s₂' hlt₂ _ h₂ => ?_
    refine (typeName_keepsMark h₂).bind fun t s₃ s₃' hlt₃ _ h₃ => ?_
    refine KeepsMark.ite (by rw [h₃.kind]) (fun hcomma => ?_) fun _ => keepsMark_ok h₃ _ _
    have hne : s₃.kind ≠ .endOfInput := by simp [hcomma]
    have hle := s₃.size_advance_le
    refine .of_leaves (TokenStream.leaves_advance hne) ?_
    exact (ih _ (by omega) _ _ rfl (h₃.advance hne)).bind fun params s₄ s₄' _ _ h₄ => keepsMark_ok h₄ _ _
  exact go _ s s' rfl hs

theorem returnType_keepsMark : KeepsMark s behind (returnType s) (returnType s') := by
  unfold returnType
  refine KeepsMark.ite (by rw [hs.kind]) (fun hcolon => ?_) fun _ => keepsMark_ok hs _ _
  have hne : s.kind ≠ .endOfInput := by simp [hcolon]
  refine .of_leaves (TokenStream.leaves_advance hne) ?_
  exact (typeName_keepsMark (hs.advance hne)).bind fun t s₁ s₁' _ _ h₁ => keepsMark_ok h₁ _ _

theorem signature_keepsMark : KeepsMark s behind (signature s) (signature s') := by
  unfold signature
  refine (keepsMark_expect hs _).bind fun word s₁ s₁' _ _ h₁ => ?_
  refine (keepsMark_expect h₁ _).bind fun id s₂ s₂' _ _ h₂ => ?_
  refine (keepsMark_expect h₂ _).bind fun _ s₃ s₃' _ _ h₃ => ?_
  refine (parameters_keepsMark h₃).bind fun params s₄ s₄' _ _ h₄ => ?_
  refine (keepsMark_expect h₄ _).bind fun _ s₅ s₅' _ _ h₅ => ?_
  refine (returnType_keepsMark h₅).bind fun ret s₆ s₆' _ _ h₆ => ?_
  exact (keepsMark_expect h₆ _).bind fun _ s₇ s₇' _ _ h₇ => keepsMark_ok h₇ _ _

end Phrases

/-! ## Statements and expressions -/

/-- What the steps do that start at `s` and at `s'` and call each other for shorter streams. -/
structure KeepsMarks (behind : List Token) (s s' : TokenStream) : Prop where
  statements : KeepsMark s behind (statements s) (statements s')
  statement : KeepsMark s behind (statement s) (statement s')
  rangeLoop : ∀ loc, KeepsMark s behind (rangeLoop loc s) (rangeLoop loc s')
  stepAmount : KeepsMark s behind (stepAmount s) (stepAmount s')
  countingLoop : ∀ loc, KeepsMark s behind (countingLoop loc s) (countingLoop loc s')
  expression : KeepsMark s behind (expression s) (expression s')
  terms : ∀ afterOperand, KeepsMark s behind (terms afterOperand s) (terms afterOperand s')
  parenthesized : KeepsMark s behind (parenthesized s) (parenthesized s')
  arguments : KeepsMark s behind (arguments s) (arguments s')

section Calls
variable {behind : List Token} {s s' : TokenStream} (hs : s.Marked behind s')
  (ih : ∀ t t' : TokenStream, t.size < s.size → t.Marked behind t' → KeepsMarks behind t t')
include hs ih

theorem block_keepsMark : KeepsMark s behind (Parse.block s) (Parse.block s') := by
  rw [Parse.block, Parse.block]
  refine (keepsMark_expect hs _).bind fun brace s₁ s₁' hlt _ h₁ => ?_
  refine (ih s₁ s₁' hlt h₁).statements.bind fun parts s₂ s₂' _ _ h₂ => ?_
  exact (keepsMark_expect h₂ _).bind fun _ s₃ s₃' _ _ h₃ => keepsMark_ok h₃ _ _

theorem branch_keepsMark : KeepsMark s behind (branch s) (branch s') := by
  rw [branch, branch]
  refine (keepsMark_expect hs _).bind fun word s₁ s₁' hlt _ h₁ => ?_
  refine (ih s₁ s₁' hlt h₁).parenthesized.bind fun test s₂ s₂' hlt₂ _ h₂ => ?_
  refine (ih s₂ s₂' (by omega) h₂).statement.bind fun body s₃ s₃' hlt₃ _ h₃ => ?_
  refine KeepsMark.ite (by rw [h₃.kind]) (fun helse => ?_) fun _ => keepsMark_ok h₃ _ _
  have hne : s₃.kind ≠ .endOfInput := by simp [helse]
  have hle := s₃.size_advance_le
  refine .of_leaves (TokenStream.leaves_advance hne) ?_
  exact (ih _ _ (by omega) (h₃.advance hne)).statement.bind fun orelse s₄ s₄' _ _ h₄ => keepsMark_ok h₄ _ _

theorem whileLoop_keepsMark : KeepsMark s behind (Parse.whileLoop s) (Parse.whileLoop s') := by
  rw [Parse.whileLoop, Parse.whileLoop]
  refine (keepsMark_expect hs _).bind fun word s₁ s₁' hlt _ h₁ => ?_
  refine (ih s₁ s₁' hlt h₁).parenthesized.bind fun test s₂ s₂' hlt₂ _ h₂ => ?_
  exact (ih s₂ s₂' (by omega) h₂).statement.bind fun body s₃ s₃' _ _ h₃ => keepsMark_ok h₃ _ _

theorem letIn_keepsMark : KeepsMark s behind (Parse.letIn s) (Parse.letIn s') := by
  rw [Parse.letIn, Parse.letIn]
  refine (keepsMark_expect hs _).bind fun word s₁ s₁' hlt _ h₁ => ?_
  refine (keepsMark_expect h₁ _).bind fun id s₂ s₂' hlt₂ _ h₂ => ?_
  refine (keepsMark_expect h₂ _).bind fun _ s₃ s₃' hlt₃ _ h₃ => ?_
  exact (ih s₃ s₃' (by omega) h₃).expression.bind fun value s₄ s₄' _ _ h₄ => keepsMark_ok h₄ _ _

theorem forLoop_keepsMark : KeepsMark s behind (Parse.forLoop s) (Parse.forLoop s') := by
  rw [Parse.forLoop, Parse.forLoop]
  refine (keepsMark_expect hs _).bind fun word s₁ s₁' hlt _ h₁ => ?_
  refine (keepsMark_expect h₁ _).bind fun _ s₂ s₂' hlt₂ _ h₂ => ?_
  have hsteps := ih s₂ s₂' (by omega) h₂
  have hform : s₂.kind = .identifier ∧ (s₂.token 1).kind = .comma ↔
      s₂'.kind = .identifier ∧ (s₂'.token 1).kind = .comma := by
    rw [h₂.kind]
    refine and_congr_right fun hid => ?_
    rw [h₂.token_one (by simp [hid])]
  refine KeepsMark.ite hform (fun _ => ?_) fun _ => ?_
  · exact (hsteps.rangeLoop _).bind fun e s₃ s₃' _ _ h₃ => keepsMark_ok h₃ _ _
  · exact (hsteps.countingLoop _).bind fun e s₃ s₃' _ _ h₃ => keepsMark_ok h₃ _ _

theorem rangeLoop_keepsMark (loc : Location) :
    KeepsMark s behind (Parse.rangeLoop loc s) (Parse.rangeLoop loc s') := by
  rw [Parse.rangeLoop, Parse.rangeLoop]
  refine (keepsMark_expect hs _).bind fun id s₁ s₁' hlt _ h₁ => ?_
  refine (keepsMark_expect h₁ _).bind fun _ s₂ s₂' hlt₂ _ h₂ => ?_
  refine (bound_keepsMark h₂ _).bind fun start s₃ s₃' hlt₃ _ h₃ => ?_
  refine (keepsMark_expect h₃ _).bind fun _ s₄ s₄' hlt₄ _ h₄ => ?_
  refine (bound_keepsMark h₄ _).bind fun stop s₅ s₅' hlt₅ _ h₅ => ?_
  refine (ih s₅ s₅' (by omega) h₅).stepAmount.bind fun step s₆ s₆' hlt₆ _ h₆ => ?_
  refine (keepsMark_expect h₆ _).bind fun _ s₇ s₇' hlt₇ _ h₇ => ?_
  exact (ih s₇ s₇' (by omega) h₇).statement.bind fun body s₈ s₈' _ _ h₈ => keepsMark_ok h₈ _ _

theorem stepAmount_keepsMark : KeepsMark s behind (stepAmount s) (stepAmount s') := by
  rw [stepAmount, stepAmount]
  by_cases h : s.kind = .comma
  · rw [dif_pos h, dif_pos (hs.kind.trans h)]
    have hne : s.kind ≠ .endOfInput := by simp [h]
    refine .of_leaves (TokenStream.leaves_advance hne) ?_
    refine (ih _ _ (s.size_advance_lt hne) (hs.advance hne)).expression.bind fun e s₁ s₁' _ _ h₁ => ?_
    exact keepsMark_ok h₁ _ _
  · rw [dif_neg h, dif_neg (hs.kind.symm ▸ h)]
    exact keepsMark_ok hs _ _

theorem parenthesized_keepsMark : KeepsMark s behind (parenthesized s) (parenthesized s') := by
  rw [parenthesized, parenthesized]
  refine (keepsMark_expect hs _).bind fun _ s₁ s₁' hlt _ h₁ => ?_
  refine (ih s₁ s₁' hlt h₁).expression.bind fun e s₂ s₂' _ _ h₂ => ?_
  exact (keepsMark_expect h₂ _).bind fun _ s₃ s₃' _ _ h₃ => keepsMark_ok h₃ _ _

theorem nameOrCall_keepsMark : KeepsMark s behind (nameOrCall s) (nameOrCall s') := by
  rw [nameOrCall, nameOrCall]
  refine (keepsMark_expect hs _).bind fun id s₁ s₁' hlt _ h₁ => ?_
  refine KeepsMark.ite (by rw [h₁.kind]) (fun hparen => ?_) fun _ => keepsMark_ok h₁ _ _
  have hne : s₁.kind ≠ .endOfInput := by simp [hparen]
  have hle := s₁.size_advance_le
  refine .of_leaves (TokenStream.leaves_advance hne) ?_
  refine (ih _ _ (by omega) (h₁.advance hne)).arguments.bind fun args s₂ s₂' _ _ h₂ => ?_
  exact (keepsMark_expect h₂ _).bind fun _ s₃ s₃' _ _ h₃ => keepsMark_ok h₃ _ _

theorem operand_keepsMark : KeepsMark s behind (Parse.operand s) (Parse.operand s') := by
  rw [Parse.operand, Parse.operand, hs.kind]
  split
  · exact block_keepsMark hs ih
  · exact branch_keepsMark hs ih
  · exact parenthesized_keepsMark hs ih
  iterate 5
    · exact (literal_keepsMark hs).bind fun found s₁ s₁' _ _ h₁ => keepsMark_ok h₁ _ _
  · exact nameOrCall_keepsMark hs ih
  · exact keepsMark_refuse hs _

theorem term_keepsMark (afterOperand : Bool) :
    KeepsMark s behind (term afterOperand s) (term afterOperand s') := by
  have hkind := hs.kind
  rw [term, term]
  split
  · next op hop =>
    have hne : s.kind ≠ .endOfInput := fun he => by simp [he, TokenKind.operator?] at hop
    split
    · next op' hop' =>
      rw [hkind, hop] at hop'
      obtain rfl := Option.some.inj hop'
      exact ⟨by rw [hs.loc], TokenStream.leaves_advance hne, hs.advance hne⟩
    · next hop' => cases (hkind ▸ hop').symm.trans hop
  · next hop =>
    by_cases hafter : afterOperand
    · rw [if_pos hafter, if_pos hafter]
      split
      · next op' hop' => cases (hkind ▸ hop').symm.trans hop
      · exact keepsMark_refuse hs _
    · rw [if_neg hafter, if_neg hafter]
      split
      · next op' hop' => cases (hkind ▸ hop').symm.trans hop
      · exact (operand_keepsMark hs ih).bind fun e s₁ s₁' _ _ h₁ => keepsMark_ok h₁ _ _

theorem terms_keepsMark (afterOperand : Bool) :
    KeepsMark s behind (terms afterOperand s) (terms afterOperand s') := by
  rw [terms, terms]
  refine (term_keepsMark hs ih afterOperand).bind fun first s₁ s₁' hlt _ h₁ => ?_
  refine KeepsMark.ite (by rw [h₁.kind]) (fun _ => keepsMark_ok h₁ _ _) fun _ => ?_
  exact ((ih s₁ s₁' hlt h₁).terms first.isOperand).bind fun rest s₂ s₂' _ _ h₂ => keepsMark_ok h₂ _ _

theorem expression_keepsMark : KeepsMark s behind (Parse.expression s) (Parse.expression s') := by
  rw [Parse.expression, Parse.expression]
  refine KeepsMark.ite (by rw [hs.kind]) (fun _ => keepsMark_refuse hs _) fun _ => ?_
  refine (terms_keepsMark hs ih false).bind fun run s₁ s₁' _ _ h₁ => ?_
  exact keepsMark_liftAt h₁ fun e => keepsMark_ok h₁ _ _

theorem countingLoop_keepsMark (loc : Location) :
    KeepsMark s behind (Parse.countingLoop loc s) (Parse.countingLoop loc s') := by
  rw [Parse.countingLoop, Parse.countingLoop]
  refine (expression_keepsMark hs ih).bind fun count s₁ s₁' hlt _ h₁ => ?_
  refine (keepsMark_expect h₁ _).bind fun _ s₂ s₂' hlt₂ _ h₂ => ?_
  exact (ih s₂ s₂' (by omega) h₂).statement.bind fun body s₃ s₃' _ _ h₃ => keepsMark_ok h₃ _ _

theorem arguments_keepsMark : KeepsMark s behind (arguments s) (arguments s') := by
  rw [arguments, arguments]
  refine KeepsMark.ite (by rw [hs.kind]) (fun _ => keepsMark_ok hs _ _) fun _ => ?_
  refine (expression_keepsMark hs ih).bind fun e s₁ s₁' hlt _ h₁ => ?_
  have hle := s₁.size_skip_le .comma
  refine .of_leaves (s₁.leaves_skip .comma (by decide)) ?_
  refine (ih _ _ (by omega) (h₁.skip .comma (by decide))).arguments.bind fun rest s₂ s₂' _ _ h₂ => ?_
  exact keepsMark_ok h₂ _ _

theorem statement_keepsMark : KeepsMark s behind (statement s) (statement s') := by
  rw [statement, statement, hs.kind]
  split
  · exact block_keepsMark hs ih
  · exact whileLoop_keepsMark hs ih
  · exact forLoop_keepsMark hs ih
  · exact letIn_keepsMark hs ih
  · exact branch_keepsMark hs ih
  · exact expression_keepsMark hs ih

theorem function_keepsMark : KeepsMark s behind (function s) (function s') := by
  rw [function, function]
  refine (signature_keepsMark hs).bind fun signature s₁ s₁' hlt _ h₁ => ?_
  exact (ih s₁ s₁' hlt h₁).statement.bind fun body s₂ s₂' _ _ h₂ => keepsMark_ok h₂ _ _

theorem statements_keepsMark : KeepsMark s behind (statements s) (statements s') := by
  rw [statements, statements]
  refine KeepsMark.ite (by rw [hs.kind]) (fun _ => keepsMark_ok hs _ _) fun _ => ?_
  refine KeepsMark.ite (by rw [hs.kind]) (fun _ => ?_) fun _ => ?_
  · refine (function_keepsMark hs ih).bind fun f s₁ s₁' hlt _ h₁ => ?_
    have hle := s₁.size_skip_le .semicolon
    refine .of_leaves (s₁.leaves_skip .semicolon (by decide)) ?_
    refine (ih _ _ (by omega) (h₁.skip .semicolon (by decide))).statements.bind fun parts s₂ s₂' _ _ h₂ => ?_
    exact keepsMark_ok h₂ _ _
  · refine (statement_keepsMark hs ih).bind fun e s₁ s₁' hlt _ h₁ => ?_
    have hle := s₁.size_skip_le .semicolon
    refine .of_leaves (s₁.leaves_skip .semicolon (by decide)) ?_
    refine (ih _ _ (by omega) (h₁.skip .semicolon (by decide))).statements.bind fun parts s₂ s₂' _ _ h₂ => ?_
    exact keepsMark_ok h₂ _ _

end Calls

theorem keepsMarks {behind : List Token} {s s' : TokenStream} (hs : s.Marked behind s') : KeepsMarks behind s s' := by
  induction hn : s.size using Nat.strongRecOn generalizing s s' with
  | ind n ih =>
    have ih : ∀ t t' : TokenStream, t.size < s.size → t.Marked behind t' → KeepsMarks behind t t' :=
      fun t t' h ht => ih _ (hn ▸ h) ht rfl
    exact ⟨statements_keepsMark hs ih, statement_keepsMark hs ih, rangeLoop_keepsMark hs ih,
      stepAmount_keepsMark hs ih, countingLoop_keepsMark hs ih, expression_keepsMark hs ih, terms_keepsMark hs ih,
      parenthesized_keepsMark hs ih, arguments_keepsMark hs ih⟩

/-! ## Programs -/

theorem program_keepsMark {behind : List Token} {s s' : TokenStream} (hs : s.Marked behind s') :
    KeepsMark s behind (program s) (program s') := by
  unfold program
  refine (keepsMarks hs).statements.bind fun parts s₁ s₁' _ _ h₁ => ?_
  refine KeepsMark.ite (by rw [h₁.atEnd]) (fun _ => ?_) fun _ => ?_
  · rw [hs.loc]
    exact keepsMark_ok h₁ _ _
  · exact ⟨by rw [h₁.current, h₁.loc], .refl s₁, h₁⟩

/-- Whether it is accepted or refused, reading a program uses up tokens up to some place in front of the end mark. -/
theorem program_leaves (s : TokenStream) : s.Leaves (program s).left := by
  have hprogram := program_keepsMark (show s.Marked [] (s.marked []) from rfl)
  cases h : program s <;> cases h' : program (s.marked []) <;> rw [h, h'] at hprogram
  · exact hprogram.2.1
  · exact False.elim hprogram
  · exact False.elim hprogram
  · exact hprogram.2.1

/-- With the end mark among the tokens, and any others behind it, the same is read, and all of these are left. -/
theorem program_marked (s : TokenStream) (behind : List Token) :
    readProgram (s.marked behind) = readProgram s ∧
      (program (s.marked behind)).left = (program s).left.marked behind := by
  have hprogram := program_keepsMark (show s.Marked behind (s.marked behind) from rfl)
  unfold readProgram
  cases h : program s <;> cases h' : program (s.marked behind) <;> rw [h, h'] at hprogram
  · exact ⟨congrArg Except.error hprogram.1, hprogram.2.2⟩
  · exact False.elim hprogram
  · exact False.elim hprogram
  · exact ⟨congrArg Except.ok hprogram.1, hprogram.2.2⟩

end Parse
end FrontEnd
