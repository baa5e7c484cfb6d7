import FrontEnd.Compile
import FrontEnd.Proofs.Syntax.Accepts
import FrontEnd.Proofs.Syntax.Scanning

/-!
# Reading and the grammar

Reading gives just the trees that the grammar derives.

* `Parse.Recognizes` : what the steps that call each other read, `Parse.recognizes` : for every stream, by induction on
  its size;
* `Parse.program_iff` : the same for whole programs.

Tokens of sources never mark the end of the input, so that a program takes all of them.
-/

namespace FrontEnd

/-- Whether no operand of a run of terms follows another; `afterOperand` says whether one stands in front of the run. -/
def Term.SeparatedAfter : (afterOperand : Bool) → List Term → Prop
  | _, [] => True
  | afterOperand, t :: run => ¬ (afterOperand ∧ t.isOperand) ∧ SeparatedAfter t.isOperand run

theorem Term.separatedAfter_iff (t : Term) (run : List Term) :
    SeparatedAfter t.isOperand run ↔ Separated (t :: run) := by
  induction run generalizing t with
  | nil => simp [SeparatedAfter, Separated]
  | cons t' run ih =>
    rw [SeparatedAfter, ih]
    unfold Separated
    rw [List.isChain_cons_cons]

theorem Term.separatedAfter_false (run : List Term) : SeparatedAfter false run ↔ Separated run := by
  cases run with
  | nil => simp [SeparatedAfter, Separated]
  | cons t run => simp [SeparatedAfter, separatedAfter_iff]

namespace Parse
open Grammar

/-! ## Statements and expressions -/

/-- What the steps that start at `s` and call each other for shorter streams read. -/
structure Recognizes (s : TokenStream) : Prop where
  statements : Accepts (fun k => k = .rightBrace ∨ k = .endOfInput) s
    (fun ts next p => Statements ts next p.1 p.2) (statements s)
  statement : Accepts (fun _ => True) s Statement (statement s)
  function : Accepts (fun _ => True) s Declaration (function s)
  rangeLoop : ∀ loc, Accepts (fun _ => True) s (RangeLoop loc) (rangeLoop loc s)
  stepAmount : Accepts (· = .rightParen) s Step (stepAmount s)
  countingLoop : ∀ loc, Accepts (fun _ => True) s (CountingLoop loc) (countingLoop loc s)
  expression : Accepts (fun _ => True) s Expression (expression s)
  terms : ∀ afterOperand, Accepts (fun _ => True) s
    (fun ts next run => Terms ts next run ∧ run ≠ [] ∧ Term.SeparatedAfter afterOperand run ∧ next.isTerminator)
    (terms afterOperand s)
  parenthesized : Accepts (fun _ => True) s (fun ts _ e => Parenthesized ts e) (parenthesized s)
  arguments : Accepts (· = .rightParen) s (fun ts _ args => Arguments ts args) (arguments s)

section Calls
variable {s : TokenStream} (ih : ∀ s' : TokenStream, s'.size < s.size → Recognizes s')
include ih

theorem accepts_block : Accepts (fun _ => True) s (fun ts _ e => Block ts e) (Parse.block s) := by
  rw [Parse.block]
  apply Accepts.congr
  · apply Accepts.token (by decide)
    intro brace s₁ h₁
    apply Accepts.bindBefore (ih s₁ h₁).statements
    · intro p s₂ h₂
      apply Accepts.token (by decide)
      intro _ s₃ h₃
      apply Accepts.pure
    · intro _ _ _ _ _ h
      exact .inl (front_of_cons h)
  · intro ts next e _ _
    constructor
    · rintro ⟨opening, _, rfl, ho, us, _, ⟨fs, es⟩, rfl, hs, closing, _, rfl, hc, rfl, rfl⟩
      exact .mk ho (hc ▸ hs) hc
    · rintro ⟨ho, hs, hc⟩
      exact ⟨_, _, rfl, ho, _, _, (_, _), rfl, by rw [front_cons, hc]; exact hs, _, _, rfl, hc, rfl, rfl⟩

theorem accepts_branch : Accepts (fun _ => True) s Branch (branch s) := by
  rw [branch]
  apply Accepts.congr
  · apply Accepts.token (by decide)
    intro word s₁ h₁
    apply Accepts.bind (ih s₁ h₁).parenthesized
    intro test s₂ h₂
    apply Accepts.bind (ih s₂ (by omega)).statement
    intro body s₃ h₃
    apply Accepts.ite (· = .elseWord)
    · intro hk
      apply Accepts.advance hk (by decide)
      have hle := s₃.size_advance_le
      apply Accepts.map (ih s₃.advance (by omega)).statement
      intro orelse s₄ h₄
      exact ⟨_, rfl⟩
    · intro _
      apply Accepts.pure
  · intro ts next e _ _
    constructor
    · rintro ⟨word, _, rfl, hw, ts, _, test, rfl, ht, us, _, body, rfl, hb, hrest⟩
      rcases hrest with ⟨hk, sign, vs, rfl, hs, orelse, he, rfl⟩ | ⟨hno, rfl, rfl⟩
      · rw [front_cons, hs] at hb
        exact .ifElse hw ht hb hs he
      · rw [List.append_nil]
        exact .ifThen hw ht hb hno
    · intro h
      cases h with
      | ifThen hw ht hb hno =>
        exact ⟨_, _, rfl, hw, _, _, _, rfl, ht, _, [], _, (List.append_nil _).symm, hb, .inr ⟨hno, rfl, rfl⟩⟩
      | ifElse hw ht hb hs he =>
        exact ⟨_, _, rfl, hw, _, _, _, rfl, ht, _, _, _, rfl, by rw [front_cons, hs]; exact hb,
          .inl ⟨hs, _, _, rfl, hs, _, he, rfl⟩⟩

theorem accepts_whileLoop : Accepts (fun _ => True) s WhileLoop (whileLoop s) := by
  rw [whileLoop]
  apply Accepts.congr
  · apply Accepts.token (by decide)
    intro word s₁ h₁
    apply Accepts.bind (ih s₁ h₁).parenthesized
    intro test s₂ h₂
    apply Accepts.map (ih s₂ (by omega)).statement
    intro body s₃ h₃
    exact ⟨_, rfl⟩
  · intro ts next e _ _
    constructor
    · rintro ⟨word, _, rfl, hw, ts, us, test, rfl, ht, body, hb, rfl⟩
      exact .mk hw ht hb
    · rintro ⟨hw, ht, hb⟩
      exact ⟨_, _, rfl, hw, _, _, _, rfl, ht, _, hb, rfl⟩

theorem accepts_letIn : Accepts (fun _ => True) s Binding (letIn s) := by
  rw [letIn]
  apply Accepts.congr
  · apply Accepts.token (by decide)
    intro word s₁ h₁
    apply Accepts.token (by decide)
    intro id s₂ h₂
    apply Accepts.token (by decide)
    intro _ s₃ h₃
    apply Accepts.map (ih s₃ (by omega)).expression
    intro value s₄ h₄
    exact ⟨_, rfl⟩
  · intro ts next e _ _
    constructor
    · rintro ⟨word, _, rfl, hw, id, _, rfl, hid, sign, ts, rfl, hs, value, hv, rfl⟩
      exact .mk hw hid hs hv
    · rintro ⟨hw, hid, hs, hv⟩
      exact ⟨_, _, rfl, hw, _, _, rfl, hid, _, _, rfl, hs, _, hv, rfl⟩

theorem accepts_rangeLoop (loc : Location) : Accepts (fun _ => True) s (RangeLoop loc) (Parse.rangeLoop loc s) := by
  rw [Parse.rangeLoop]
  apply Accepts.congr
  · apply Accepts.token (by decide)
    intro id s₁ h₁
    apply Accepts.token (by decide)
    intro _ s₂ h₂
    apply Accepts.bind (accepts_bound s₂ .start)
    intro start s₃ h₃
    apply Accepts.token (by decide)
    intro _ s₄ h₄
    apply Accepts.bind (accepts_bound s₄ .stop)
    intro stop s₅ h₅
    apply Accepts.bindBefore (ih s₅ (by omega)).stepAmount
    · intro step s₆ h₆
      apply Accepts.token (by decide)
      intro _ s₇ h₇
      apply Accepts.map (ih s₇ (by omega)).statement
      intro body s₈ h₈
      exact ⟨_, rfl⟩
    · intro _ _ _ _ _
      apply front_of_cons
  · intro ts next e _ _
    constructor
    · rintro ⟨id, _, rfl, hid, comma, _, rfl, hc, _, _, a, rfl, ⟨start, rfl, ha⟩, comma', _, rfl, hc', _, _, b, rfl,
        ⟨stop, rfl, hb⟩, ts, _, step, rfl, hs, closing, us, rfl, hp, body, hbody, rfl⟩
      rw [front_cons, hp] at hs
      exact .mk hid hc ha hc' hb hs hp hbody
    · rintro ⟨hid, hc, ha, hc', hb, hs, hp, hbody⟩
      exact ⟨_, _, rfl, hid, _, _, rfl, hc, [_], _, _, rfl, ⟨_, rfl, ha⟩, _, _, rfl, hc', [_], _, _, rfl,
        ⟨_, rfl, hb⟩, _, _, _, rfl, by rw [front_cons, hp]; exact hs, _, _, rfl, hp, _, hbody, rfl⟩

theorem accepts_stepAmount : Accepts (· = .rightParen) s Step (stepAmount s) := by
  rw [stepAmount]
  by_cases hk : s.kind = .comma
  · rw [dif_pos hk]
    apply Accepts.congr
    · apply Accepts.advance hk (by decide)
      have hamount := (ih s.advance (s.size_advance_lt (by simp [hk]))).expression
      apply Accepts.map (hamount.mono fun _ _ => trivial)
      intro amount s₁ h₁
      exact ⟨_, rfl⟩
    · intro ts next step hfront hg
      constructor
      · rintro ⟨comma, ts, rfl, hc, amount, he, rfl⟩
        exact .present hc he
      · intro h
        cases h with
        | absent => simp [front, hg, hk] at hfront
        | present hc he => exact ⟨_, _, rfl, hc, _, he, rfl⟩
  · rw [dif_neg hk]
    apply Accepts.congr
    · apply Accepts.pure
    · intro ts next step hfront _
      constructor
      · rintro ⟨rfl, rfl⟩
        exact .absent
      · intro h
        cases h with
        | absent => exact ⟨rfl, rfl⟩
        | present hc he => exact absurd (hfront.symm.trans hc) hk

theorem accepts_parenthesized : Accepts (fun _ => True) s (fun ts _ e => Parenthesized ts e) (parenthesized s) := by
  rw [parenthesized]
  apply Accepts.congr
  · apply Accepts.token (by decide)
    intro _ s₁ h₁
    apply Accepts.bind (ih s₁ h₁).expression
    intro e s₂ h₂
    apply Accepts.token (by decide)
    intro _ s₃ h₃
    apply Accepts.pure
  · intro ts next e _ _
    constructor
    · rintro ⟨opening, _, rfl, ho, us, _, e, rfl, he, closing, _, rfl, hc, rfl, rfl⟩
      rw [front_cons, hc] at he
      exact .mk ho he hc
    · rintro ⟨ho, he, hc⟩
      exact ⟨_, _, rfl, ho, _, _, _, rfl, by rw [front_cons, hc]; exact he, _, _, rfl, hc, rfl, rfl⟩

theorem accepts_nameOrCall : Accepts (fun k => k ≠ .leftParen) s (fun ts _ e => Named ts e) (nameOrCall s) := by
  rw [nameOrCall]
  apply Accepts.congr
  · apply Accepts.token (by decide)
    intro id s₁ h₁
    apply Accepts.ite (· = .leftParen)
    · intro hk
      apply Accepts.advance hk (by decide)
      have hle := s₁.size_advance_le
      apply Accepts.bindBefore (ih s₁.advance (by omega)).arguments
      · intro args s₂ h₂
        apply Accepts.token (by decide)
        intro _ s₃ h₃
        apply Accepts.pure
      · intro _ _ _ _ _
        apply front_of_cons
    · intro _
      apply Accepts.pure
  · intro ts next e _ hg
    constructor
    · rintro ⟨id, _, rfl, hid, hrest⟩
      rcases hrest with ⟨-, opening, _, rfl, ho, us, _, args, rfl, ha, closing, _, rfl, hc, rfl, rfl⟩ | ⟨-, rfl, rfl⟩
      · exact .call hid ho ha hc
      · exact .name hid
    · intro h
      cases h with
      | name hid => exact ⟨_, _, rfl, hid, .inr ⟨hg, rfl, rfl⟩⟩
      | call hid ho ha hc =>
        exact ⟨_, _, rfl, hid, .inl ⟨ho, _, _, rfl, ho, _, _, _, rfl, ha, _, _, rfl, hc, rfl, rfl⟩⟩

/-- What follows the opening parenthesis of a loop and its first token. The second token decides: it is a comma in every
range loop, and behind a name in no counting loop. -/
theorem accepts_loop (loc : Location) (s₂ : TokenStream) (hlt : s₂.size < s.size) :
    Accepts (fun _ => True) s₂ (fun ts next e => RangeLoop loc ts next e ∨ CountingLoop loc ts next e)
      (if s₂.kind = .identifier ∧ (s₂.token 1).kind = .comma then do
        let found ← Parse.rangeLoop loc s₂
        return ⟨found.value, found.rest, found.shorter.trans hlt⟩
      else do
        let found ← Parse.countingLoop loc s₂
        return ⟨found.value, found.rest, found.shorter.trans hlt⟩ : Parse Expr s.size) := by
  split
  · next hk =>
    apply Accepts.congrAhead
    · apply Accepts.map ((ih s₂ hlt).rangeLoop loc)
      intro e s₃ h₃
      exact ⟨_, rfl⟩
    · intro ts rest e hs _
      constructor
      · rintro ⟨e, he, rfl⟩
        exact .inl he
      · rintro (he | he)
        · exact ⟨e, he, rfl⟩
        · obtain ⟨t, us, rfl, hno⟩ := he.second_ne_comma
          rw [hs, token_one_prepend] at hk
          exact absurd hk.2 (hno hk.1)
  · next hk =>
    apply Accepts.congrAhead
    · apply Accepts.map ((ih s₂ hlt).countingLoop loc)
      intro e s₃ h₃
      exact ⟨_, rfl⟩
    · intro ts rest e hs _
      constructor
      · rintro ⟨e, he, rfl⟩
        exact .inr he
      · rintro (he | he)
        · obtain ⟨t, us, rfl, hid, hc⟩ := he.second_eq_comma
          rw [hs, token_one_prepend] at hk
          exact absurd ⟨hid, hc⟩ hk
        · exact ⟨e, he, rfl⟩

theorem accepts_forLoop : Accepts (fun _ => True) s ForLoop (forLoop s) := by
  rw [forLoop]
  apply Accepts.congr
  · apply Accepts.token (by decide)
    intro word s₁ h₁
    apply Accepts.token (by decide)
    intro _ s₂ h₂
    exact accepts_loop ih word.loc s₂ (by omega)
  · intro ts next e _ _
    constructor
    · rintro ⟨word, _, rfl, hw, opening, _, rfl, ho, h | h⟩
      · exact .range hw ho h
      · exact .counting hw ho h
    · intro h
      cases h with
      | range hw ho h => exact ⟨_, _, rfl, hw, _, _, rfl, ho, .inl h⟩
      | counting hw ho h => exact ⟨_, _, rfl, hw, _, _, rfl, ho, .inr h⟩

omit ih in
theorem accepts_literalOperand : Accepts (fun _ => True) s
    (fun ts _ e => ∃ t value, ts = [t] ∧ Literal.ofToken t = .ok value ∧ e = Expr.literal t.loc value)
    (do let ⟨(loc, value), s₁, h₁⟩ ← literal s; return ⟨Expr.literal loc value, s₁, h₁⟩) := by
  apply Accepts.congr
  · exact (accepts_literal s).map (f := fun a => Expr.literal a.1 a.2) fun a s₁ h₁ => ⟨_, rfl⟩
  · intro ts next e _ _
    constructor
    · rintro ⟨⟨_, value⟩, ⟨t, rfl, rfl, hv⟩, rfl⟩
      exact ⟨t, value, rfl, hv, rfl⟩
    · rintro ⟨t, value, rfl, hv, rfl⟩
      exact ⟨(t.loc, value), ⟨t, rfl, rfl, hv⟩, rfl⟩

theorem accepts_operand :
    Accepts (fun k => k ≠ .leftParen) s Operand (operand s) := by
  rw [operand]
  split
  · next hk =>
    refine ((accepts_block ih).mono fun _ _ => trivial).congr fun ts next e hfront _ => ?_
    rw [operand_iff, hfront, hk]
  · next hk =>
    refine ((accepts_branch ih).mono fun _ _ => trivial).congr fun ts next e hfront _ => ?_
    rw [operand_iff, hfront, hk]
  · next hk =>
    refine ((accepts_parenthesized ih).mono fun _ _ => trivial).congr fun ts next e hfront _ => ?_
    rw [operand_iff, hfront, hk]
  iterate 5
    next hk =>
    refine (Accepts.mono accepts_literalOperand fun _ _ => trivial).congr fun ts next e hfront _ => ?_
    rw [operand_iff, hfront, hk]
  · next hk =>
    refine (accepts_nameOrCall ih).congr fun ts next e hfront _ => ?_
    rw [operand_iff, hfront, hk]
  · refine (Accepts.error _).congr fun ts next e hfront _ => ⟨False.elim, fun h => ?_⟩
    rw [operand_iff, hfront] at h
    split at h <;> simp_all

/-- What follows a first term. -/
theorem accepts_furtherTerms (first : Term) (s₁ : TokenStream) (h₁ : s₁.size < s.size) :
    Accepts (fun _ => True) s₁
      (fun ts next run => ∃ rest, run = first :: rest ∧ Terms ts next rest ∧
        Term.SeparatedAfter first.isOperand rest ∧ next.isTerminator)
      (if s₁.kind.isTerminator then return ⟨[first], s₁, h₁⟩
        else do
          let found ← terms first.isOperand s₁
          return ⟨first :: found.value, found.rest, found.shorter.trans h₁⟩ : Parse (List Term) s.size) := by
  apply Accepts.congr
  · apply Accepts.ite (·.isTerminator)
    · intro _
      apply Accepts.pure
    · intro _
      apply Accepts.map ((ih s₁ h₁).terms first.isOperand)
      intro rest s₂ h₂
      exact ⟨_, rfl⟩
  · intro ts next run _ _
    constructor
    · rintro (⟨ht, rfl, rfl⟩ | ⟨-, rest, ⟨hr, -, hs, hn⟩, rfl⟩)
      · exact ⟨[], rfl, .nil, trivial, ht⟩
      · exact ⟨rest, rfl, hr, hs, hn⟩
    · rintro ⟨rest, rfl, hr, hs, hn⟩
      by_cases hne : rest = []
      · subst hne
        cases hr
        exact .inl ⟨hn, rfl, rfl⟩
      · have hno := not_terminator_of_opensTerm (hr.opensTerm hne next)
        exact .inr ⟨by simp [hno], rest, ⟨hr, hne, hs, hn⟩, rfl⟩

theorem accepts_terms (afterOperand : Bool) : Accepts (fun _ => True) s
    (fun ts next run => Terms ts next run ∧ run ≠ [] ∧ Term.SeparatedAfter afterOperand run ∧ next.isTerminator)
    (terms afterOperand s) := by
  rw [terms, term]
  split
  · next op hop =>
    have hk := TokenKind.operator?_eq_some_iff.1 hop
    apply Accepts.congrAhead
    · apply Accepts.advance hk (by simp)
      exact accepts_furtherTerms ih (.operator op s.loc) s.advance _
    · intro ts rest run hs _
      constructor
      · rintro ⟨t, us, rfl, ht, rest', rfl, hr, hsep, hn⟩
        rw [hs]
        exact ⟨.operator ht hr, List.cons_ne_nil _ _, ⟨by simp [Term.isOperand], hsep⟩, hn⟩
      · rintro ⟨hterms, hne, hsep, hn⟩
        cases hterms with
        | nil => exact absurd rfl hne
        | @operator t op' us _ run ho hr =>
          rw [hs] at hk
          obtain rfl : op' = op := TokenKind.operator.inj (ho.symm.trans hk)
          rw [hs]
          exact ⟨t, us, rfl, ho, run, rfl, hr, hsep.2, hn⟩
        | operand he hr =>
          obtain ⟨t, us, rfl, -⟩ := he.opens
          rw [hs] at hk
          exact absurd (operand_iff.1 he) (by rw [show front (t :: us) _ = .operator op from hk]; exact id)
  · next hop =>
    have hno : ∀ op, s.kind ≠ .operator op := fun op hk => by simp [hk, TokenKind.operator?] at hop
    split
    · next hafter =>
      refine (Accepts.error _).congr fun ts next run hfront _ => ⟨False.elim, ?_⟩
      rintro ⟨hterms, hne, hsep, hn⟩
      cases hterms with
      | nil => exact absurd rfl hne
      | operator ho hr => exact hno _ (hfront.symm.trans ho)
      | operand he hr => exact hsep.1 ⟨hafter, rfl⟩
    · next hafter =>
      -- A name takes a parenthesis behind it as its arguments. Behind an operand there is an operator or a terminator,
      -- so that no parenthesis is left there to be read otherwise.
      simp only [bind_assoc, pure_bind]
      apply Accepts.congr
      · apply Accepts.bindBefore (accepts_operand ih)
        · intro e s₁ h₁
          apply accepts_furtherTerms ih
        · rintro e ts next run - ⟨rest, rfl, hr, hsep, hn⟩
          cases hr with
          | nil =>
            rintro rfl
            simp [TokenKind.isTerminator] at hn
          | operator ho hr => simp [front_cons, ho]
          | operand he hr => exact absurd ⟨rfl, rfl⟩ hsep.1
      · intro ts next run hfront _
        constructor
        · rintro ⟨us, vs, e, rfl, he, rest, rfl, hr, hsep, hn⟩
          exact ⟨.operand he hr, List.cons_ne_nil _ _, ⟨fun h => hafter h.1, hsep⟩, hn⟩
        · rintro ⟨hterms, hne, hsep, hn⟩
          cases hterms with
          | nil => exact absurd rfl hne
          | operator ho hr => exact absurd (hfront.symm.trans ho) (hno _)
          | operand he hr => exact ⟨_, _, _, rfl, he, _, rfl, hr, hsep.2, hn⟩

theorem accepts_expression : Accepts (fun _ => True) s Expression (expression s) := by
  rw [expression]
  split
  · next hk =>
    refine (Accepts.error _).congr fun ts next e hfront _ => ⟨False.elim, fun h => ?_⟩
    obtain ⟨t, us, rfl, ht⟩ := h.opens
    rw [← hfront, front_cons, (not_terminator_of_opensTerm ht).1] at hk
    exact Bool.false_ne_true hk
  · next hk =>
    apply Accepts.congr
    · apply Accepts.bind (accepts_terms ih false)
      intro run s₁ h₁
      exact Accepts.liftAt (f := id) h₁
    · intro ts next e _ _
      constructor
      · rintro ⟨us, _, run, rfl, ⟨hr, hne, hsep, hn⟩, rfl, e, he, rfl⟩
        rw [List.append_nil]
        exact .mk hr hne ((Term.separatedAfter_false run).1 hsep) he hn
      · rintro ⟨hr, hne, hsep, he, hn⟩
        exact ⟨ts, [], _, (List.append_nil ts).symm, ⟨hr, hne, (Term.separatedAfter_false _).2 hsep, hn⟩, rfl, e, he,
          rfl⟩

theorem accepts_countingLoop (loc : Location) :
    Accepts (fun _ => True) s (CountingLoop loc) (Parse.countingLoop loc s) := by
  rw [Parse.countingLoop]
  apply Accepts.congr
  · apply Accepts.bind (accepts_expression ih)
    intro count s₁ h₁
    apply Accepts.token (by decide)
    intro _ s₂ h₂
    apply Accepts.map (ih s₂ (by omega)).statement
    intro body s₃ h₃
    exact ⟨_, rfl⟩
  · intro ts next e _ _
    constructor
    · rintro ⟨us, _, count, rfl, hc, closing, vs, rfl, hp, body, hb, rfl⟩
      rw [front_cons, hp] at hc
      exact .mk hc hp hb
    · rintro ⟨hc, hp, hb⟩
      exact ⟨_, _, _, rfl, by rw [front_cons, hp]; exact hc, _, _, rfl, hp, _, hb, rfl⟩

theorem accepts_arguments : Accepts (· = .rightParen) s (fun ts _ args => Arguments ts args) (arguments s) := by
  rw [arguments]
  apply Accepts.congr
  · apply Accepts.ite (·.isTerminator)
    · intro _
      apply Accepts.pure
    · intro hk
      apply Accepts.bind (accepts_expression ih)
      intro e s₁ h₁
      have hle := s₁.size_skip_le .comma
      apply Accepts.skip .comma (by decide)
      apply Accepts.map (ih (s₁.skip .comma) (by omega)).arguments
      intro rest s₂ h₂
      exact ⟨_, rfl⟩
  · rintro ts next args _ rfl
    constructor
    · rintro (⟨ht, rfl, rfl⟩ | ⟨hno, us, _, e, rfl, he, sep, vs, rfl, hsep, hk, rest, hr, rfl⟩)
      · exact .nil
      · cases hsep with
        | absent =>
          -- An expression is followed by a terminator, and no argument starts with one.
          rw [List.nil_append] at he ⊢
          obtain ⟨rfl, rfl⟩ := hr.eq_nil_of_terminator he.terminator
          rw [List.append_nil]
          exact .last he
        | present hc => exact .cons (by rw [List.singleton_append, front_cons, hc] at he; exact he) hc hr
    · intro h
      cases h with
      | nil => exact .inl ⟨rfl, rfl, rfl⟩
      | last he =>
        exact .inr ⟨by simp [he.not_terminator], _, [], _, (List.append_nil _).symm, he, [], [], rfl, .absent,
          fun _ => by simp [front], [], .nil, rfl⟩
      | cons he hc hr =>
        exact .inr ⟨by simp [front_append, he.not_terminator], _, _, _, rfl, by rw [front_cons, hc]; exact he, [_], _,
          rfl, .present hc, fun h => (by cases h), _, hr, rfl⟩

theorem accepts_statement : Accepts (fun _ => True) s Statement (statement s) := by
  rw [statement]
  split
  · next hk =>
    refine (accepts_block ih).congr fun ts next e hfront _ => ?_
    rw [statement_iff, hfront, hk]
  · next hk =>
    refine (accepts_whileLoop ih).congr fun ts next e hfront _ => ?_
    rw [statement_iff, hfront, hk]
  · next hk =>
    refine (accepts_forLoop ih).congr fun ts next e hfront _ => ?_
    rw [statement_iff, hfront, hk]
  · next hk =>
    refine (accepts_letIn ih).congr fun ts next e hfront _ => ?_
    rw [statement_iff, hfront, hk]
  · next hk =>
    refine (accepts_branch ih).congr fun ts next e hfront _ => ?_
    rw [statement_iff, hfront, hk]
  · refine (accepts_expression ih).congr fun ts next e hfront _ => ?_
    rw [statement_iff, hfront]
    split <;> simp_all

theorem accepts_function : Accepts (fun _ => True) s Declaration (function s) := by
  rw [function]
  apply Accepts.congr
  · apply Accepts.bind (accepts_signature s)
    intro signature s₁ h₁
    apply Accepts.map (ih s₁ h₁).statement
    intro body s₂ h₂
    exact ⟨_, rfl⟩
  · intro ts next f _ _
    constructor
    · rintro ⟨hs, ts, signature, rfl, hh, body, hb, rfl⟩
      exact .mk hh hb
    · rintro ⟨hh, hb⟩
      exact ⟨_, _, _, rfl, hh, _, hb, rfl⟩

theorem accepts_statements : Accepts (fun k => k = .rightBrace ∨ k = .endOfInput) s
    (fun ts next p => Statements ts next p.1 p.2) (statements s) := by
  rw [statements]
  apply Accepts.congr
  · apply Accepts.ite (·.isTerminator)
    · intro _
      apply Accepts.pure
    · intro hk
      apply Accepts.ite (· = .funWord)
      · intro _
        apply Accepts.bind (accepts_function ih)
        intro f s₁ h₁
        have hle := s₁.size_skip_le .semicolon
        apply Accepts.skip .semicolon (by decide)
        apply Accepts.map (f := fun p => (f :: p.1, Expr.declarationOf f.signature :: p.2))
          (ih (s₁.skip .semicolon) (by omega)).statements
        intro p s₂ h₂
        exact ⟨_, rfl⟩
      · intro _
        apply Accepts.bind (accepts_statement ih)
        intro e s₁ h₁
        have hle := s₁.size_skip_le .semicolon
        apply Accepts.skip .semicolon (by decide)
        apply Accepts.map (f := fun p => (p.1, e :: p.2)) (ih (s₁.skip .semicolon) (by omega)).statements
        intro p s₂ h₂
        exact ⟨_, rfl⟩
  · rintro ts next ⟨fs, es⟩ _ hg
    constructor
    · rintro (⟨-, rfl, hp⟩ | ⟨-, ⟨-, us, _, f, rfl, hf, sep, vs, rfl, hsep, -, p, hr, hp⟩ |
        ⟨-, us, _, e, rfl, he, sep, vs, rfl, hsep, -, p, hr, hp⟩⟩)
      · cases hp
        exact .nil
      · cases hp
        exact .function hf hsep hr
      · cases hp
        exact .statement he hsep hr
    · -- A `;` behind a statement is always taken with it, since no statement starts with one.
      have hsemicolon : ∀ {us gs ds}, Statements us next gs ds → front us next ≠ .semicolon := fun h =>
        h.front_ne_semicolon (by rcases hg with rfl | rfl <;> simp)
      intro h
      change Statements ts next fs es at h
      cases h with
      | nil => exact .inl ⟨by rcases hg with rfl | rfl <;> rfl, rfl, rfl⟩
      | @function us sep rest _ f gs ds hf hsep hr =>
        exact .inr ⟨by simp [front_append, hf.front_eq, TokenKind.isTerminator], .inl ⟨by
          simp [front_append, hf.front_eq], us, _, f, rfl, hf, sep, rest, rfl, hsep, fun _ => hsemicolon hr, (gs, ds),
          hr, rfl⟩⟩
      | @statement us sep rest _ e _ ds he hsep hr =>
        exact .inr ⟨by simp [front_append, he.front_spec], .inr ⟨by simp [front_append, he.front_spec], us, _, e, rfl,
          he, sep, rest, rfl, hsep, fun _ => hsemicolon hr, (fs, ds), hr, rfl⟩⟩

end Calls

theorem recognizes (s : TokenStream) : Recognizes s := by
  have go : ∀ n (s : TokenStream), s.size = n → Recognizes s := by
    intro n
    induction n using Nat.strongRecOn with
    | ind n hn =>
    rintro s rfl
    have ih : ∀ s' : TokenStream, s'.size < s.size → Recognizes s' := fun s' hlt => hn _ hlt s' rfl
    exact
      { statements := accepts_statements ih
        statement := accepts_statement ih
        function := accepts_function ih
        rangeLoop := accepts_rangeLoop ih
        stepAmount := accepts_stepAmount ih
        countingLoop := accepts_countingLoop ih
        expression := accepts_expression ih
        terms := accepts_terms ih
        parenthesized := accepts_parenthesized ih
        arguments := accepts_arguments ih }
  exact go _ s rfl

/-! ## Programs -/

section Programs
variable {s : TokenStream}

theorem accepts_program : Accepts (· = .endOfInput) s
    (fun ts next t => ∃ fs es, Statements ts next fs es ∧ t = .block s.loc fs es) (program s) := by
  unfold program
  apply Accepts.congr
  · apply Accepts.bindBefore (recognizes s).statements
    · intro p s₁ h₁
      apply Accepts.ite (fun k => (k == .endOfInput) = true)
      · intro _
        exact Accepts.pure (Expr.block s.loc p.1 p.2) h₁
      · intro _
        apply Accepts.error
    · rintro p ts next t rfl (⟨-, rfl, -⟩ | ⟨-, ⟨⟩⟩)
      exact .inr rfl
  · rintro ts next t _ rfl
    constructor
    · rintro ⟨us, _, ⟨fs, es⟩, rfl, hs, ⟨-, rfl, rfl⟩ | ⟨-, ⟨⟩⟩⟩
      rw [List.append_nil]
      exact ⟨fs, es, hs, rfl⟩
    · rintro ⟨fs, es, hs, rfl⟩
      exact ⟨ts, [], (fs, es), (List.append_nil ts).symm, hs, .inl ⟨rfl, rfl, rfl⟩⟩

theorem kind_of_program {p : Phrase Expr (s.size + 1)} (h : program s = .ok p) : p.rest.kind = .endOfInput := by
  unfold program at h
  cases hs : statements s with
  | error failure =>
    rw [hs] at h
    cases h
  | ok phrase =>
    obtain ⟨⟨fs, es⟩, s₁, h₁⟩ := phrase
    rw [hs] at h
    change (if s₁.atEnd then _ else _) = _ at h
    split at h
    · next hend =>
      cases h
      exact beq_iff_eq.1 hend
    · cases h

theorem eq_nil_of_kind (hs : ∀ t ∈ s.ahead, t.kind ≠ .endOfInput) (hk : s.kind = .endOfInput) : s.ahead = [] := by
  obtain ⟨ahead, endLoc⟩ := s
  cases ahead with
  | nil => rfl
  | cons t ts => exact absurd hk (hs t List.mem_cons_self)

theorem head?_toList (s : TokenStream) : s.toList.head? = some s.current := by
  obtain ⟨ahead, endLoc⟩ := s
  cases ahead <;> rfl

/-- A stream that does not mark its end before it comes to it is a program just if all its tokens derive it. -/
theorem program_iff (hs : ∀ t ∈ s.ahead, t.kind ≠ .endOfInput) (t : Expr) :
    Program s.toList t ↔ ∃ p, program s = .ok p ∧ p.value = t ∧ p.rest.ahead = [] := by
  constructor
  · generalize hlist : s.toList = list
    rintro ⟨hstatements, hlast, hfirst⟩
    obtain ⟨rfl, hend⟩ := List.append_inj' hlist rfl
    obtain ⟨h, hrun⟩ := (accepts_program (s := s) _ ⟨[], s.endLoc⟩ rfl).2
      ⟨s.ahead, by simp [TokenStream.prepend], _, _, hstatements, rfl⟩
    refine ⟨_, hrun, ?_, rfl⟩
    rw [← hlist, head?_toList] at hfirst
    cases hfirst
    rfl
  · rintro ⟨⟨t, rest, h⟩, hrun, rfl, hrest⟩
    obtain ⟨ahead, endLoc⟩ := rest
    obtain rfl : ahead = [] := hrest
    obtain ⟨ts, rfl, fs, es, hstatements, rfl⟩ := (accepts_program _ _ rfl).1 ⟨h, hrun⟩
    have hlist : (TokenStream.prepend ⟨[], endLoc⟩ ts).toList = ts ++ [TokenStream.last ⟨[], endLoc⟩] := by
      simp [TokenStream.toList, TokenStream.prepend, TokenStream.last]
    have hfirst := head?_toList (TokenStream.prepend ⟨[], endLoc⟩ ts)
    rw [hlist] at hfirst ⊢
    exact .mk hstatements rfl hfirst

end Programs
end Parse

/-- Reading a stream that does not mark its end early gives the trees that its tokens derive. -/
theorem readProgram_eq_ok_iff {s : TokenStream} (hs : ∀ t ∈ s.ahead, t.kind ≠ .endOfInput) (t : Expr) :
    readProgram s = .ok t ↔ Grammar.Program s.toList t := by
  rw [Parse.program_iff hs]
  unfold readProgram
  cases hp : Parse.program s with
  | error failure => simp
  | ok p =>
    have hrest : p.rest.ahead = [] := by
      obtain ⟨t, rest, h⟩ := p
      obtain ⟨ts, rfl, -⟩ := (Parse.accepts_program t rest (Parse.kind_of_program hp)).1 ⟨h, hp⟩
      exact Parse.eq_nil_of_kind (fun t ht => hs t (List.mem_append_right ts ht)) (Parse.kind_of_program hp)
    simp [hrest]

/-- The tokens of sources are read as a tree just if they derive it, and none of them is left then. -/
theorem readProgram_iff_derives (sources : List Source) (t : Expr) :
    (readProgram (.ofSources sources) = .ok t ↔ Grammar.Program (TokenStream.ofSources sources).toList t) ∧
      (Grammar.Program (TokenStream.ofSources sources).toList t ↔
        ∃ p, Parse.program (.ofSources sources) = .ok p ∧ p.value = t ∧ p.rest.ahead = []) :=
  ⟨readProgram_eq_ok_iff (TokenStream.kind_of_mem_ofSources sources) t,
    Parse.program_iff (TokenStream.kind_of_mem_ofSources sources) t⟩

end FrontEnd
