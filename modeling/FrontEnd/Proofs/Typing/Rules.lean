import FrontEnd.Proofs.Typing.Simulation

/-!
# The rules for expressions and control flow

Each rule simulates its declarative counterpart if the walker does so on the parts.
-/

namespace FrontEnd.Typing
open FrontEnd.Expr Env Check

section
variable (root : Path) (program : Expr) (n : Notes) (t : Trail)

/-- The walker types the tree `e` at `p` as declared, where a frame is open. -/
def Types (w : Walker) (p : Path) (e : Expr) : Prop :=
  ∀ env : Env, env.frames ≠ [] →
    Simulates root program n t (w.typeOf p e) env (Judge.typeOf (settle n p e)) fun ty _ => ty ≠ .any

end

namespace Simulates
variable {root : Path} {program : Expr} {n : Notes} {t : Trail} {w : Walker} {p : Path} {env : Env} {loc : Location}
variable {α : Type}

/-! ## Names and operations -/

theorem name {id : Text} :
    Simulates root program n t (rule w p (.name loc id)) env (Judge.typeOf (settle n p (.name loc id)))
      fun ty _ => ty ≠ .any := by
  rw [settle, Judge.typeOf, rule]
  refine get (assuming fun hc => ?_)
  rw [← bind_pure (Judge.variableType id)]
  cases h : env.lookupVar? id with
  | none =>
    refine refuse fun _ => ?_
    rw [Judge.variableType_bind_apply, findSome?_vars_scopes, h]
    rfl
  | some ty => exact variableType h (pure (hc.lookupVar?_ne_any h))

theorem unaryRule {op : Operator} {operand : Expr} (hop : op.isUnary) (h : Types root program n t w (0 :: p) operand)
    (hne : env.frames ≠ []) :
    Simulates root program n t (unaryRule w p loc op operand) env
      (Judge.typeOf (settle n p (.unary loc op operand))) fun ty _ => ty ≠ .any := by
  rw [settle, Judge.typeOf]
  refine (h env hne).bind fun ty env' hc hx hty => ?_
  rw [hop, Bool.true_and, Bool.not_true, if_neg Bool.false_ne_true]
  refine require (p := op.acceptsOperand ty) ?_ fun _ => ?_
  · simp
  · exact pure hty

theorem assignmentRule {op : Operator} {lhs rhs : Expr} (h : Types root program n t w (1 :: p) rhs)
    (hne : env.frames ≠ []) :
    Simulates root program n t (assignmentRule w p loc op lhs rhs) env
      (Judge.assignment op (settle n (0 :: p) lhs) (Judge.typeOf (settle n (1 :: p) rhs))) fun ty _ => ty ≠ .any := by
  cases lhs with
  | name target id =>
    rw [settle]
    refine (h env hne).bind fun ty env' hc hx hty => ?_
    refine get ?_
    cases h : env'.lookupVar? id with
    | none =>
      refine refuse fun _ => ?_
      rw [Judge.variableType_bind_apply, findSome?_vars_scopes, h]
      rfl
    | some declared =>
      refine variableType h (step (note _ _) fun env'' _ _ _ => ?_)
      refine require (p := op.acceptsValue declared ty) ?_ fun _ => ?_
      · simp
      · exact pure (by simp)
  | _ => exact refuse fun _ => rfl

theorem binaryRule {op : Operator} {lhs rhs : Expr} (hop : op.tier ≠ none)
    (hl : Types root program n t w (0 :: p) lhs) (hr : Types root program n t w (1 :: p) rhs) (hne : env.frames ≠ []) :
    Simulates root program n t (binaryRule w p loc op lhs rhs) env
      (Judge.typeOf (settle n p (.binary loc op lhs rhs))) fun ty _ => ty ≠ .any := by
  rw [settle, Judge.typeOf, Typing.binaryRule]
  cases ha : op.isAssignment with
  | true => exact assignmentRule hr hne
  | false =>
    rw [if_neg Bool.false_ne_true, if_neg hop, if_neg Bool.false_ne_true]
    refine (hl env hne).bind fun l env' hc hx _ => ?_
    refine (hr env' (hx.frames_ne_nil hne)).bind fun r env'' _ _ _ => ?_
    cases h : op.resultType? l r with
    | none => exact refuse fun _ => rfl
    | some ty => exact pure (Operator.resultType?_ne_any h)

theorem letRule {id : Text} {value : Expr} (h : Types root program n t w (0 :: p) value) (hne : env.frames ≠ []) :
    Simulates root program n t (letRule w p loc id value) env (Judge.typeOf (settle n p (.letIn loc id value)))
      fun ty _ => ty ≠ .any := by
  rw [settle, Judge.typeOf]
  refine get (requireNoVar ?_)
  refine (h env hne).bind fun ty env' _ hx hty => ?_
  refine (bindVar (hx.frames_ne_nil hne) hty).bind fun _ _ _ _ _ => ?_
  exact pure (by simp)

/-! ## Control flow -/

theorem checkCondition {i : Nat} {statement : Conditional} {test : Expr}
    (h : Types root program n t w (i :: p) test) (hne : env.frames ≠ []) :
    Simulates root program n t (checkCondition w p i statement loc test) env
      (Judge.condition (Judge.typeOf (settle n (i :: p) test))) fun _ _ => True := by
  refine (h env hne).bind fun ty env' _ _ _ => ?_
  rw [← bind_pure (guard _)]
  refine require (p := ty = .bool) ?_ fun _ => ?_
  · simp
  · exact pure trivial

theorem ifThen {test body : Expr} (ht : Types root program n t w (0 :: p) test)
    (hb : Types root program n t w (1 :: p) body) (hne : env.frames ≠ []) :
    Simulates root program n t (rule w p (.ifThen loc test body)) env
      (Judge.typeOf (settle n p (.ifThen loc test body))) fun ty _ => ty ≠ .any := by
  rw [settle, Judge.typeOf, rule]
  refine (checkCondition ht hne).bind fun _ env' _ hx _ => ?_
  refine (hb env' (hx.frames_ne_nil hne)).bind fun _ _ _ _ _ => ?_
  exact pure (by simp)

theorem ifElse {test body orelse : Expr} (ht : Types root program n t w (0 :: p) test)
    (hb : Types root program n t w (1 :: p) body) (ho : Types root program n t w (2 :: p) orelse)
    (hne : env.frames ≠ []) :
    Simulates root program n t (rule w p (.ifElse loc test body orelse)) env
      (Judge.typeOf (settle n p (.ifElse loc test body orelse))) fun ty _ => ty ≠ .any := by
  rw [settle, Judge.typeOf, rule]
  refine (checkCondition ht hne).bind fun _ env₁ _ hx _ => ?_
  have hne₁ := hx.frames_ne_nil hne
  refine (hb env₁ hne₁).bind fun ty env₂ _ hx₂ hty => ?_
  refine (ho env₂ (hx₂.frames_ne_nil hne₁)).bind fun ty' _ _ _ _ => ?_
  refine require (p := ty = ty') ?_ fun _ => ?_
  · simp
  · exact pure hty

theorem whileLoop {test body : Expr} (ht : Types root program n t w (0 :: p) test)
    (hb : Types root program n t w (1 :: p) body) (hne : env.frames ≠ []) :
    Simulates root program n t (rule w p (.whileLoop loc test body)) env
      (Judge.typeOf (settle n p (.whileLoop loc test body))) fun ty _ => ty ≠ .any := by
  rw [settle, Judge.typeOf, rule]
  refine (checkCondition ht hne).bind fun _ env' _ hx _ => ?_
  refine (hb env' (hx.frames_ne_nil hne)).bind fun _ _ _ _ _ => ?_
  exact pure (by simp)

theorem forRule {varLoc : Location} {var : Text} {start test step body : Expr}
    (hs : Types root program n t w (0 :: p) (.letIn varLoc var start)) (ht : Types root program n t w (1 :: p) test)
    (hi : Types root program n t w (2 :: p) step) (hb : Types root program n t w (3 :: p) body) :
    Simulates root program n t (forRule w p loc varLoc var start test step body) env
      (Judge.typeOf (settle n p (.forLoop loc varLoc var start test step body))) fun ty _ => ty ≠ .any := by
  rw [settle, Judge.typeOf]
  refine (inNewFrame (fun _ => True) ?_).bind fun _ _ _ _ _ => pure (by simp)
  have hne : env.enter.frames ≠ [] := List.cons_ne_nil _ _
  have hstart := hs env.enter hne
  rw [settle, Judge.typeOf] at hstart
  refine hstart.bind fun _ env₁ _ hx₁ _ => ?_
  have hne₁ := hx₁.frames_ne_nil hne
  refine (checkCondition ht hne₁).bind fun _ env₂ _ hx₂ _ => ?_
  have hne₂ := hx₂.frames_ne_nil hne₁
  refine (hi env₂ hne₂).bind fun _ env₃ _ hx₃ _ => ?_
  refine (hb env₃ (hx₃.frames_ne_nil hne₂)).bind fun _ _ _ _ _ => ?_
  exact pure trivial

end Simulates
end FrontEnd.Typing
