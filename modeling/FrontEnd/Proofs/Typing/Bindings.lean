import FrontEnd.Proofs.Typing.Frames

/-!
# Bindings at the points of a check

* `Point.Rebinds` : what is bound where a binding is about to be made;
* `watched_eq` : a monitor that lets all points pass where that holds does not stop a check;
* `Reaches.of_passed` : points that no check has to be stopped at are all that it comes to; `rebinds_of_reaches` : so
  `Point.Rebinds` holds at all its points.
-/

namespace FrontEnd.Typing
open Check Env

/-- A binding of `id` that started in `env₀` is about to be made: its value has just been typed. -/
def Point.Binding (point : Point) (id : Text) (value : Expr) (env₀ : Env) : Prop :=
  ∃ p loc rest, point.trail = ⟨.node p (.letIn loc id value), env₀⟩ :: rest ∧
    point.moment = .leaving (.node (0 :: p) value)

/-- Where a binding is about to be made, the innermost frame is the one that it started with. The name was free there,
and is bound now just if the value binds it. -/
def Point.Rebinds (point : Point) : Prop := ∀ id value env₀, point.Binding id value env₀ →
  point.env.currentScope? = env₀.currentScope? ∧ env₀.hasVar id = false ∧
    (point.env.hasVar id ↔ id ∈ value.bindings)

/-- Where the value of a binding is about to be typed, the name is free. -/
def Starts (t : Trail) (p : Path) (e : Expr) (env : Env) : Prop := ∀ q loc id env₀ rest,
  t = ⟨.node q (.letIn loc id e), env₀⟩ :: rest → p = 0 :: q → env = env₀ ∧ env.hasVar id = false

section
variable {monitor : Monitor} {limit : Nat} {t : Trail}
variable (ih : ∀ t p e env, Starts t p e env → watchedTypeOf monitor limit t p e env = typeOf limit p e env)
variable (ihc : ∀ t occasion i, watchedClosure monitor limit t occasion i = checkClosure limit occasion i)
include ih ihc

/-- Inside a step that is no binding the monitor changes nothing. -/
theorem watchedWalker_eq {step : Step} {env : Env} (hstep : ∀ p loc id value, step ≠ .node p (.letIn loc id value)) :
    watchedWalker monitor limit (⟨step, env⟩ :: t) = walker limit := by
  unfold watchedWalker walker
  congr 1
  · funext p e env'
    refine ih _ _ _ _ fun q loc id env₀ rest ht _ => ?_
    cases ht
    exact absurd rfl (hstep _ _ _ _)
  · funext occasion i
    exact ihc _ occasion i

theorem rule_watchedWalker (p : Path) (e : Expr) (env : Env) :
    rule (watchedWalker monitor limit (⟨.node p e, env⟩ :: t)) p e env = rule (walker limit) p e env := by
  cases e with
  | letIn loc id value =>
    show letRule _ p loc id value env = letRule _ p loc id value env
    unfold letRule
    rw [get_bind_apply, get_bind_apply]
    cases hvar : env.hasVar id with
    | true => rfl
    | false =>
      have hvalue : watchedTypeOf monitor limit (⟨.node p (.letIn loc id value), env⟩ :: t) (0 :: p) value env =
          typeOf limit (0 :: p) value env := by
        refine ih _ _ _ _ fun q loc' id' env₀ rest ht _ => ?_
        cases ht
        exact ⟨rfl, hvar⟩
      show ((watchedTypeOf _ _ _ _ _) >>= _) env = ((typeOf _ _ _) >>= _) env
      rw [bind_apply, bind_apply, hvalue]
  | _ => rw [watchedWalker_eq ih ihc (by simp)]

end

/-- Where the value of a binding has just been typed, it has bound the name just if it says so. -/
theorem Starts.rebinds {t : Trail} {p : Path} {e : Expr} {env env' : Env} {limit : Nat} {ty : Ty}
    (h : Starts t p e env) (hrun : typeOf limit p e env = .ok ty env') :
    Point.Rebinds ⟨t, .leaving (.node p e), env'⟩ := by
  rintro id value env₀ ⟨q, loc, rest, ht, hm⟩
  cases hm
  obtain ⟨rfl, hfree⟩ := h q loc id env₀ rest ht rfl
  have hadds := ((walker_binds limit).typeOf _ _).of_ok hrun
  exact ⟨hadds.scope, hfree, by rw [hadds.hasVar, hfree]; simp⟩

/-- A step at both points of which the monitor lets it pass. -/
theorem watched_passed {α : Type} {monitor : Monitor} {t : Trail} {step : Step} {env : Env} (inner : Trail → Check α)
    (hentering : monitor ⟨t, .entering step, env⟩ = none)
    (hleaving : ∀ a env', inner (⟨step, env⟩ :: t) env = .ok a env' → monitor ⟨t, .leaving step, env'⟩ = none) :
    watched monitor t step inner env = inner (⟨step, env⟩ :: t) env := by
  rw [watched_apply inner hentering]
  cases hrun : inner (⟨step, env⟩ :: t) env with
  | error fault env' => rfl
  | ok a env' =>
    dsimp only
    rw [hleaving a env' hrun]

/-- A monitor that lets such points pass stops no check. -/
theorem watched_eq {monitor : Monitor} (hmon : ∀ point : Point, point.Rebinds → monitor point = none) (limit : Nat) :
    (∀ t p e env, Starts t p e env → watchedTypeOf monitor limit t p e env = typeOf limit p e env) ∧
      ∀ t occasion i, watchedClosure monitor limit t occasion i = checkClosure limit occasion i := by
  induction limit with
  | zero => exact ⟨fun _ _ _ _ _ => rfl, fun _ _ _ => rfl⟩
  | succ limit ih =>
    obtain ⟨ih, ihc⟩ := ih
    have hother : ∀ t moment env, (∀ p e, moment ≠ .leaving (.node p e)) → monitor ⟨t, moment, env⟩ = none := by
      intro t moment env hno
      refine hmon _ ?_
      rintro id value env₀ ⟨q, loc, rest, -, hm⟩
      exact absurd hm (hno _ _)
    refine ⟨fun t p e env hstarts => ?_, fun t occasion i => ?_⟩
    · have hinner : (rule (watchedWalker monitor limit (⟨.node p e, env⟩ :: t)) p e >>= fun ty => do
          note p ty
          return ty) env = typeOf (limit + 1) p e env := by
        rw [bind_apply, rule_watchedWalker ih ihc, ← bind_apply]
        rfl
      rw [watchedTypeOf, watched_passed _ (hother _ _ _ (by simp))]
      · exact hinner
      · intro ty env' hrun
        exact hmon _ (hstarts.rebinds (hinner.symm.trans hrun))
    · funext env
      have hinner : bodyRule (watchedWalker monitor limit (⟨.body occasion i (env.closure i).site, env⟩ :: t))
          occasion i = checkClosure (limit + 1) occasion i := by
        rw [watchedWalker_eq ih ihc (by simp)]
        rfl
      rw [watchedClosure, get_bind_apply, watched_passed _ (hother _ _ _ (by simp))]
      · exact congrFun hinner env
      · intro ty env' _
        exact hother _ _ _ (by simp)

/-- If the monitors that let some points pass do not stop a check, then it comes to no other points. -/
theorem Reaches.of_passed {p : Path} {e : Expr} {env : Env} {passed : Point → Prop}
    (hpassed : ∀ monitor : Monitor, (∀ point, passed point → monitor point = none) →
      watchedCheck monitor p e env = check p e env) {point : Point} (h : Reaches p e env point) : passed point := by
  refine Classical.byContradiction fun hno => ?_
  have hrun : ∀ fault, ∃ env', check p e env = .error fault env' := by
    intro fault
    obtain ⟨env', hstop⟩ := h fault
    refine ⟨env', ?_⟩
    rw [← hstop, hpassed]
    intro q hq
    rw [stopAt, if_neg]
    rintro rfl
    exact hno hq
  obtain ⟨env₁, h₁⟩ := hrun (.parse .unexpectedEnd {})
  obtain ⟨env₂, h₂⟩ := hrun (.internal .noTerms)
  cases h₁.symm.trans h₂

theorem rebinds_of_reaches {p : Path} {e : Expr} {env : Env} {point : Point} (h : Reaches p e env point) :
    point.Rebinds := by
  refine h.of_passed fun monitor hmon => ?_
  exact (watched_eq hmon _).1 [] p e env (by rintro _ _ _ _ _ ⟨⟩)

end FrontEnd.Typing
