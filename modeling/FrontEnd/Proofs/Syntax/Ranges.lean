import FrontEnd.Proofs.Rounding
import FrontEnd.Proofs.Syntax.Recognition

/-!
# Loops over ranges of whole numbers

* `Expr.upwardLoop`, `Expr.downwardLoop` : the two trees of `for (i, a, b, step) body`;
* `Expr.rangeLoop_int` : which of them is built, as the bounds are compared once they are rounded to 53 bits;
* `Parse.statement_intRange` : what is read as such a loop, and when its direction is that of its bounds.
-/

namespace FrontEnd

namespace Expr
variable (loc : Location) (id start stop : Token) (a b : Nat) (step : Option Expr) (body : Expr)

/-- The loop from `a` up to `b`: the variable is less than the bound, and takes the step, or one. -/
def upwardLoop : Expr :=
  forLoop loc start.loc id.text (literal start.loc (.int a))
    (binary stop.loc .less (name start.loc id.text) (literal stop.loc (.int b)))
    (binary stop.loc .addAssign (name stop.loc id.text) (step.getD (literal stop.loc (.int 1))))
    body

/-- The loop from `a` down to `b`: the variable is greater than the bound, and takes the negated step, or minus one. -/
def downwardLoop : Expr :=
  forLoop loc start.loc id.text (literal start.loc (.int a))
    (binary stop.loc .greater (name start.loc id.text) (literal stop.loc (.int b)))
    (binary stop.loc .addAssign (name stop.loc id.text)
      ((step.map (unary loc .subtract)).getD (literal stop.loc (.int (-1)))))
    body

variable {a b}

theorem rangeLoop_int (ha : a < 2 ^ 63) (hb : b < 2 ^ 63) :
    rangeLoop loc id.text ⟨start.loc, .int a⟩ ⟨stop.loc, .int b⟩ step body =
      if Binary64.rounded a < Binary64.rounded b then upwardLoop loc id start stop a b step body
      else downwardLoop loc id start stop a b step body := by
  have hup : runsUpwards ⟨start.loc, .int a⟩ ⟨stop.loc, .int b⟩ ↔ Binary64.rounded a < Binary64.rounded b :=
    Binary64.lt_ofInt ha hb
  by_cases h : Binary64.rounded a < Binary64.rounded b
  · cases step <;> simp [rangeLoop, rangeStep, hup.2 h, h, upwardLoop, Number.literal, Number.one]
  · cases step <;>
      simp [rangeLoop, rangeStep, Bool.eq_false_iff.2 (mt hup.1 h), h, downwardLoop, Number.literal, Number.one,
        Number.negate]

end Expr

theorem Literal.lt_of_ofToken {t : Token} {n : Nat} (h : Literal.ofToken t = .ok (.int n)) : n < 2 ^ 63 := by
  obtain ⟨hn, hle⟩ := Literal.int_of_ofToken h
  rw [Int.ofNat_inj.1 hn]
  exact Nat.lt_of_le_of_lt hle (by decide)

theorem Grammar.bounds_iff {t : Token} {n : Nat} (h : Literal.ofToken t = .ok (.int n)) (b : Bound) :
    Grammar.Bounds t b ↔ b = ⟨t.loc, .int n⟩ := by
  constructor
  · rintro ⟨value, hvalue, hnumber, hloc⟩
    cases h.symm.trans hvalue
    obtain ⟨loc, number⟩ := b
    cases hnumber
    rw [hloc]
  · rintro rfl
    exact ⟨_, h, rfl, rfl⟩

/-- Rounding can take a difference away, and never turns it around; below `2 ^ 53` it changes nothing. -/
theorem Binary64.rounded_lt (a b : Nat) : (b ≤ a → ¬ rounded a < rounded b) ∧
    (a < b → rounded a < rounded b ∨ rounded a = rounded b) ∧
    (a < 2 ^ 53 → (rounded a < rounded b ↔ a < b)) := by
  refine ⟨fun h => Nat.not_lt.2 (rounded_mono h), fun h => Nat.lt_or_eq_of_le (rounded_mono h.le), fun ha => ?_⟩
  constructor
  · intro h
    by_contra hle
    exact absurd h (Nat.not_lt.2 (rounded_mono (Nat.not_lt.1 hle)))
  · intro h
    have hnext : rounded (a + 1) ≤ rounded b := rounded_mono h
    rw [rounded_of_le ha] at hnext
    rw [rounded_of_le ha.le]
    exact hnext

namespace Parse
open Grammar

/-- What is read behind `for (i, a, b` with two whole numbers is an optional step and a body. The loop runs upwards just
if `b` is greater than `a` once both are rounded to 53 bits. So it never runs upwards when `b` is not greater, and does so
when it is, unless both are rounded to the same number, which needs `a` to be `2 ^ 53` at least. -/
theorem statement_intRange {word opening id comma start comma' stop : Token} {a b : Nat} (hw : word.kind = .forWord)
    (ho : opening.kind = .leftParen) (hid : id.kind = .identifier) (hc : comma.kind = .comma)
    (ha : Literal.ofToken start = .ok (.int a)) (hc' : comma'.kind = .comma)
    (hb : Literal.ofToken stop = .ok (.int b)) (more : List Token) (rest : TokenStream) (e : Expr) :
    ((∃ h, statement ⟨word :: opening :: id :: comma :: start :: comma' :: stop :: more, rest.endLoc⟩ =
        .ok ⟨e, rest, h⟩) ↔
      ∃ ts closing us step body, more = ts ++ closing :: (us ++ rest.ahead) ∧ closing.kind = .rightParen ∧
        Step ts .rightParen step ∧ Statement us rest.kind body ∧
        e = if Binary64.rounded a < Binary64.rounded b then Expr.upwardLoop word.loc id start stop a b step body
          else Expr.downwardLoop word.loc id start stop a b step body) ∧
    (b ≤ a → ¬ Binary64.rounded a < Binary64.rounded b) ∧
    (a < b → Binary64.rounded a < Binary64.rounded b ∨ Binary64.rounded a = Binary64.rounded b) ∧
    (a < 2 ^ 53 → (Binary64.rounded a < Binary64.rounded b ↔ a < b)) := by
  refine ⟨?_, Binary64.rounded_lt a b⟩
  have hloop := fun step body => Expr.rangeLoop_int word.loc id start stop step body
    (Literal.lt_of_ofToken ha) (Literal.lt_of_ofToken hb)
  rw [(recognizes _).statement e rest trivial]
  constructor
  · rintro ⟨ts, hs, hstatement⟩
    have hfront : front ts rest.kind = .forWord := by
      rw [← kind_prepend, ← hs]
      exact hw
    have hfor := statement_iff.1 hstatement
    rw [hfront] at hfor
    obtain ⟨hahead, -⟩ := TokenStream.mk.inj hs
    cases hfor with
    | range _ _ hrange =>
      cases hrange with
      | @mk _ _ _ _ _ _ closing ts us _ a' b' step body _ _ hbound _ hbound' hstep hp hbody =>
        simp only [List.cons_append, List.append_assoc, List.cons.injEq] at hahead
        obtain ⟨rfl, rfl, rfl, rfl, rfl, rfl, rfl, rfl⟩ := hahead
        rw [(bounds_iff ha a').1 hbound, (bounds_iff hb b').1 hbound', hloop]
        exact ⟨ts, closing, us, step, body, rfl, hp, hstep, hbody, rfl⟩
    | counting _ _ hcounting =>
      -- behind `(` a name with a comma starts a range
      obtain ⟨t, us, rfl, hno⟩ := hcounting.second_ne_comma
      simp only [List.cons_append, List.cons.injEq] at hahead
      obtain ⟨-, -, rfl, hus⟩ := hahead
      have hcomma : front us rest.kind = comma.kind := by
        rw [← kind_prepend, TokenStream.prepend, ← hus]
        rfl
      exact absurd (hcomma.trans hc) (hno hid)
  · rintro ⟨ts, closing, us, step, body, rfl, hp, hstep, hbody, rfl⟩
    refine ⟨word :: opening :: id :: comma :: start :: comma' :: stop :: (ts ++ closing :: us), ?_, ?_⟩
    · simp [TokenStream.prepend]
    · rw [← hloop]
      exact .forLoop (.range hw ho (.mk hid hc ((bounds_iff ha _).2 rfl) hc' ((bounds_iff hb _).2 rfl) hstep hp hbody))

/-- `for (i, 1, 3) 2`. -/
theorem statement_intRange_upward :
    Literal.ofToken ⟨.integer, "1", ⟨"m", 1, 9⟩⟩ = .ok (.int (1 : Nat)) ∧
    Literal.ofToken ⟨.integer, "3", ⟨"m", 1, 12⟩⟩ = .ok (.int (3 : Nat)) ∧
    ∃ h, statement ⟨[⟨.forWord, "for", ⟨"m", 1, 1⟩⟩, ⟨.leftParen, "(", ⟨"m", 1, 5⟩⟩, ⟨.identifier, "i", ⟨"m", 1, 6⟩⟩,
        ⟨.comma, ",", ⟨"m", 1, 7⟩⟩, ⟨.integer, "1", ⟨"m", 1, 9⟩⟩, ⟨.comma, ",", ⟨"m", 1, 10⟩⟩,
        ⟨.integer, "3", ⟨"m", 1, 12⟩⟩, ⟨.rightParen, ")", ⟨"m", 1, 13⟩⟩, ⟨.integer, "2", ⟨"m", 1, 15⟩⟩],
        ⟨"m", 1, 16⟩⟩ =
      .ok ⟨.upwardLoop ⟨"m", 1, 1⟩ ⟨.identifier, "i", ⟨"m", 1, 6⟩⟩ ⟨.integer, "1", ⟨"m", 1, 9⟩⟩
        ⟨.integer, "3", ⟨"m", 1, 12⟩⟩ 1 3 none (.literal ⟨"m", 1, 15⟩ (.int 2)), ⟨[], ⟨"m", 1, 16⟩⟩, h⟩ := by
  refine ⟨by rfl, by rfl, ?_⟩
  have hliteral : Operand [⟨.integer, "2", ⟨"m", 1, 15⟩⟩] .endOfInput (.literal ⟨"m", 1, 15⟩ (.int 2)) :=
    .literal (by rfl)
  have hbody : Statement [⟨.integer, "2", ⟨"m", 1, 15⟩⟩] .endOfInput (.literal ⟨"m", 1, 15⟩ (.int 2)) :=
    .expression (.mk (.operand hliteral .nil) (List.cons_ne_nil _ _) (List.isChain_singleton _)
      (by with_unfolding_all rfl) rfl) rfl
  have hup : Binary64.rounded 1 < Binary64.rounded 3 := by decide +kernel
  refine (statement_intRange (a := 1) (b := 3) rfl rfl rfl rfl (by rfl) rfl (by rfl) _ ⟨[], ⟨"m", 1, 16⟩⟩ _).1.2
    ⟨[], ⟨.rightParen, ")", ⟨"m", 1, 13⟩⟩, _, none, _, rfl, rfl, .absent, hbody, ?_⟩
  rw [if_pos hup]

end Parse

/-- The first bounds for which both directions are the same after rounding: the loop goes down, though its bound is
greater than where it starts. -/
theorem readProgram_roundedRange : (9007199254740992 : Nat) < 9007199254740993 ∧
    readProgram (.ofSources [⟨"for (i, 9007199254740992, 9007199254740993) i", "m"⟩]) = .ok (.block ⟨"m", 1, 1⟩ []
      [.forLoop ⟨"m", 1, 1⟩ ⟨"m", 1, 9⟩ "i" (.literal ⟨"m", 1, 9⟩ (.int 9007199254740992))
        (.binary ⟨"m", 1, 27⟩ .greater (.name ⟨"m", 1, 9⟩ "i") (.literal ⟨"m", 1, 27⟩ (.int 9007199254740993)))
        (.binary ⟨"m", 1, 27⟩ .addAssign (.name ⟨"m", 1, 27⟩ "i") (.literal ⟨"m", 1, 27⟩ (.int (-1))))
        (.name ⟨"m", 1, 45⟩ "i")]) := by
  constructor
  · decide
  · with_unfolding_all rfl

end FrontEnd
