import FrontEnd.Proofs.Typing.Bindings

/-!
# Steps of a check under monitors

Under all monitors a check comes to the same points in the same order, up to the first at which it is stopped.

* `Visits` : the points that a step comes to; `Visits.bind_ok`, `Visits.watched_ok`, … : those of steps put together;
* `Visits.reaches_iff` : they are the points that the check reaches;
* `Law` : properties that are kept when steps are put together; `Law.rule` : they go over from the parts of a node to
  the rule of its kind.
-/

namespace FrontEnd.Typing
open Check Env

/-- Started in `env`, the step comes to the points in this order: it is stopped at the first of them at which the
monitor wants it, and goes on as without a monitor if there is none. -/
structure Visits {α : Type} (x : Monitor → Check α) (env : Env) (points : List Point) : Prop where
  passed : ∀ monitor : Monitor, points.findSome? monitor = none → x monitor env = x noMonitor env
  stopped : ∀ (monitor : Monitor) (fault : Fault), points.findSome? monitor = some fault →
    ∃ env', x monitor env = .error fault env'

namespace Visits
variable {α β : Type} {x : Monitor → Check α} {f : Monitor → α → Check β} {a : α} {fault : Fault}
variable {env env' : Env} {points more : List Point}

/-- A step that no monitor sees. -/
theorem unwatched (x : Check α) (env : Env) : Visits (fun _ => x) env [] :=
  ⟨fun _ _ => rfl, fun _ _ h => by cases h⟩

theorem bind_ok (h : Visits x env points) (hrun : x noMonitor env = .ok a env')
    (h' : Visits (fun monitor => f monitor a) env' more) :
    Visits (fun monitor => x monitor >>= f monitor) env (points ++ more) := by
  refine ⟨fun monitor hp => ?_, fun monitor fault hp => ?_⟩
  · rw [List.findSome?_append, Option.or_eq_none_iff] at hp
    rw [bind_apply, bind_apply, h.passed monitor hp.1, hrun]
    exact h'.passed monitor hp.2
  · rw [List.findSome?_append, Option.or_eq_some_iff] at hp
    rcases hp with hp | ⟨hp, hp'⟩
    · obtain ⟨env'', hx⟩ := h.stopped monitor fault hp
      exact ⟨env'', bind_error hx⟩
    · obtain ⟨env'', hf⟩ := h'.stopped monitor fault hp'
      refine ⟨env'', ?_⟩
      rw [bind_apply, h.passed monitor hp, hrun]
      exact hf

theorem bind_error (h : Visits x env points) (hrun : x noMonitor env = .error fault env') :
    Visits (fun monitor => x monitor >>= f monitor) env points := by
  refine ⟨fun monitor hp => ?_, fun monitor fault hp => ?_⟩
  · rw [bind_apply, bind_apply, h.passed monitor hp, hrun]
  · obtain ⟨env'', hx⟩ := h.stopped monitor fault hp
    exact ⟨env'', Typing.bind_error hx⟩

theorem inNewFrame (h : Visits x env.enter points) :
    Visits (fun monitor => Check.inNewFrame (x monitor)) env points := by
  refine ⟨fun monitor hp => ?_, fun monitor fault hp => ?_⟩
  · simp only [Check.inNewFrame, h.passed monitor hp]
  · obtain ⟨env'', hx⟩ := h.stopped monitor fault hp
    exact ⟨env''.leave, inNewFrame_error hx⟩

theorem inFrames {frames : List Frame} (h : Visits x { env with frames } points) :
    Visits (fun monitor => Check.inFrames frames (x monitor)) env points := by
  refine ⟨fun monitor hp => ?_, fun monitor fault hp => ?_⟩
  · simp only [Check.inFrames, h.passed monitor hp]
  · obtain ⟨env'', hx⟩ := h.stopped monitor fault hp
    exact ⟨{ env'' with frames := env.frames }, by simp only [Check.inFrames, hx]⟩

theorem get {f : Monitor → Env → Check α} (h : Visits (fun monitor => f monitor env) env points) :
    Visits (fun monitor => MonadState.get >>= f monitor) env points := ⟨h.passed, h.stopped⟩

theorem watch (t : Trail) (moment : Moment) (env : Env) :
    Visits (fun monitor => Typing.watch monitor t moment) env [⟨t, moment, env⟩] := by
  refine ⟨fun monitor hp => ?_, fun monitor fault hp => ⟨env, ?_⟩⟩ <;> rw [List.findSome?_singleton] at hp
  · rw [watch_apply, watch_apply, hp]
    rfl
  · rw [watch_apply, hp]

section
variable {t : Trail} {step : Step} {inner : Monitor → Trail → Check α}
variable (h : Visits (fun monitor => inner monitor (⟨step, env⟩ :: t)) env points)
include h

theorem watched_ok (hrun : inner noMonitor (⟨step, env⟩ :: t) env = .ok a env') :
    Visits (fun monitor => watched monitor t step (inner monitor)) env
      (⟨t, .entering step, env⟩ :: (points ++ [⟨t, .leaving step, env'⟩])) :=
  (watch t (.entering step) env).bind_ok rfl
    (get (h.bind_ok hrun ((watch t (.leaving step) env').bind_ok rfl (unwatched (pure a) env'))))

theorem watched_error (hrun : inner noMonitor (⟨step, env⟩ :: t) env = .error fault env') :
    Visits (fun monitor => watched monitor t step (inner monitor)) env (⟨t, .entering step, env⟩ :: points) :=
  (watch t (.entering step) env).bind_ok rfl (get (h.bind_error hrun))

end

/-- The points that a check comes to are those which it reaches. -/
theorem reaches_iff {p : Path} {e : Expr} (h : Visits (fun monitor => watchedCheck monitor p e) env points)
    {point : Point} : Reaches p e env point ↔ point ∈ points := by
  refine ⟨fun hreaches => hreaches.of_passed fun monitor hpassed => ?_, fun hmem fault => ?_⟩
  · rw [← check_eq_watched]
    exact h.passed monitor (List.findSome?_eq_none_iff.2 hpassed)
  · refine h.stopped _ _ ?_
    cases hp : points.findSome? (stopAt point fault) with
    | none =>
      have hnone := List.findSome?_eq_none_iff.1 hp point hmem
      rw [stopAt, if_pos rfl] at hnone
      cases hnone
    | some fault' =>
      obtain ⟨q, -, hq⟩ := List.exists_of_findSome?_eq_some hp
      rw [stopAt] at hq
      split at hq
      · exact hq.symm
      · cases hq

end Visits

/-! ## Properties of steps -/

/-- A property of steps that holds of steps put together if it holds of each of them. What comes after a step is made
only where that step ends without a monitor. -/
structure Law (P : {α : Type} → (Monitor → Check α) → Env → Prop) : Prop where
  pure : ∀ {α : Type} {env : Env} (a : α), P (fun _ => Pure.pure a) env
  fails : ∀ {α : Type} {env : Env} {fault : Fault}, P (fun _ => (throw fault : Check α)) env
  bind : ∀ {α β : Type} {env : Env} {x : Monitor → Check α} {f : Monitor → α → Check β}, P x env →
    (∀ a env', x noMonitor env = .ok a env' → P (fun monitor => f monitor a) env') →
    P (fun monitor => x monitor >>= f monitor) env
  get : ∀ {α : Type} {env : Env} {f : Monitor → Env → Check α}, P (fun monitor => f monitor env) env →
    P (fun monitor => MonadState.get >>= f monitor) env
  note : ∀ {env : Env} (p : Path) (t : Ty), P (fun _ => Check.note p t) env
  bindVar : ∀ {env : Env} {id : Text} (t : Ty), env.hasVar id = false → P (fun _ => Check.bindVar id t) env
  inNewFrame : ∀ {α : Type} {env : Env} {x : Monitor → Check α}, P x env.enter →
    P (fun monitor => Check.inNewFrame (x monitor)) env

namespace Law
variable {P : {α : Type} → (Monitor → Check α) → Env → Prop} (law : Law P)
include law

omit law in
theorem ite {α : Type} {env : Env} {c : Prop} [Decidable c] {x y : Monitor → Check α} (hx : c → P x env)
    (hy : ¬ c → P y env) : P (fun monitor => if c then x monitor else y monitor) env := by
  split
  · next h => exact hx h
  · next h => exact hy h

/-- A condition that is refused, in front of what comes next. -/
theorem require {α : Type} {env : Env} {c : Prop} [Decidable c] {fault : Fault} {f : Monitor → Unit → Check α}
    (h : ¬ c → P (fun monitor => f monitor ()) env) :
    P (fun monitor => if c then (throw fault : Check Unit) >>= f monitor else f monitor ()) env := by
  refine Law.ite (fun _ => law.bind law.fails fun a env' hrun => ?_) h
  cases hrun

theorem registered {env : Env} (id : Text) : P (fun _ => Check.registered id) env := by
  refine law.get ?_
  cases env.lookupFun? id with
  | none => exact law.fails
  | some i => exact law.pure i

theorem bindParameters {env : Env} {loc : Location} (params : List (Text × Ty)) :
    P (fun _ => Typing.bindParameters loc params) env := by
  induction params generalizing env with
  | nil => exact law.pure ()
  | cons param params ih =>
    refine law.get (law.require fun hfree => ?_)
    exact law.bind (law.bindVar _ (by simpa using hfree)) fun _ _ _ => ih

section
variable {w : Monitor → Walker} {p : Path} {loc : Location} {env : Env}

theorem checkArguments (callee : Text) {i : Nat} {args : List Expr} {params : List (Text × Ty)}
    (hargs : ∀ (k : Nat) arg, args[k]? = some arg →
      ∀ env, P (fun monitor => (w monitor).typeOf ((i + k) :: p) arg) env) :
    P (fun monitor => Typing.checkArguments (w monitor) callee p i args params) env := by
  induction args generalizing i params env with
  | nil =>
    simp only [Typing.checkArguments]
    exact law.pure ()
  | cons arg args ih =>
    cases params with
    | nil =>
      simp only [Typing.checkArguments]
      exact law.pure ()
    | cons param params =>
      simp only [Typing.checkArguments]
      refine law.bind (hargs 0 arg rfl env) fun ty env₁ _ => law.require fun _ => ih fun k arg' hk => ?_
      rw [show i + 1 + k = i + (k + 1) by omega]
      exact hargs (k + 1) arg' hk

/-- A call has the body of a function checked only as long as it has not been looked at. -/
theorem callRule {callee : Text} {args : List Expr}
    (hargs : ∀ (k : Nat) arg, args[k]? = some arg → ∀ env, P (fun monitor => (w monitor).typeOf (k :: p) arg) env)
    (hcall : ∀ i env, (env.closure i).progress = .unchecked → P (fun monitor => (w monitor).checkClosure .call i) env) :
    P (fun monitor => Typing.callRule (w monitor) p loc callee args) env := by
  refine law.get ?_
  cases env.lookupFun? callee with
  | none => exact law.fails
  | some i =>
    refine law.get (law.get (law.require fun _ => law.require fun _ => ?_))
    refine law.bind (law.checkArguments callee fun k arg hk => ?_) fun _ env₁ _ => law.get ?_
    · rw [Nat.zero_add]
      exact hargs k arg hk
    · exact Law.ite (fun h => law.bind (hcall i _ h) fun _ _ _ => law.get (law.pure _)) fun _ => law.get (law.pure _)

theorem checkCondition {i : Nat} {statement : Conditional} {test : Expr}
    (h : ∀ env, P (fun monitor => (w monitor).typeOf (i :: p) test) env) :
    P (fun monitor => Typing.checkCondition (w monitor) p i statement loc test) env :=
  law.bind (h env) fun _ _ _ => law.require fun _ => law.pure _

section
variable {e : Expr}
variable (hparts : ∀ (k : Nat) part, e.children[k]? = some part →
  ∀ env, P (fun monitor => (w monitor).typeOf (k :: p) part) env)
include hparts

theorem assignmentRule {op : Operator} {lhs rhs : Expr} (he : e = .binary loc op lhs rhs) :
    P (fun monitor => Typing.assignmentRule (w monitor) p loc op lhs rhs) env := by
  subst he
  cases lhs with
  | name target id =>
    refine law.bind (hparts 1 _ rfl env) fun value env₁ _ => law.get ?_
    dsimp only
    cases env₁.lookupVar? id with
    | none => exact law.fails
    | some declared => exact law.bind (law.note _ _) fun _ _ _ => law.require fun _ => law.pure _
  | _ => exact law.fails

theorem binaryRule {op : Operator} {lhs rhs : Expr} (he : e = .binary loc op lhs rhs) :
    P (fun monitor => Typing.binaryRule (w monitor) p loc op lhs rhs) env := by
  refine Law.ite (fun _ => law.assignmentRule hparts he) fun _ => Law.ite (fun _ => law.fails) fun _ => ?_
  subst he
  refine law.bind (hparts 0 _ rfl env) fun l env₁ _ => law.bind (hparts 1 _ rfl env₁) fun r _ _ => ?_
  cases op.resultType? l r with
  | none => exact law.fails
  | some ty => exact law.pure ty

theorem forRule {varLoc : Location} {var : Text} {start test step body : Expr}
    (he : e = .forLoop loc varLoc var start test step body) :
    P (fun monitor => Typing.forRule (w monitor) p loc varLoc var start test step body) env := by
  subst he
  refine law.bind (law.inNewFrame ?_) fun _ _ _ => law.pure _
  refine law.bind (hparts 0 _ rfl _) fun _ _ _ => law.bind (law.checkCondition (hparts 1 _ rfl)) fun _ _ _ => ?_
  exact law.bind (hparts 2 _ rfl _) fun _ _ _ => law.bind (hparts 3 _ rfl _) fun _ _ _ => law.pure _

/-- What holds of the parts of a node holds of the node. Blocks, declarations and bindings are left to be looked at. -/
theorem rule (hcall : ∀ i env, (env.closure i).progress = .unchecked →
      P (fun monitor => (w monitor).checkClosure .call i) env)
    (hlet : ∀ loc id value, e = .letIn loc id value → P (fun monitor => letRule (w monitor) p loc id value) env)
    (hblock : ∀ loc functions statements, e = .block loc functions statements →
      P (fun monitor => blockRule (w monitor) p functions statements) env)
    (hdecl : ∀ loc id, e = .funDecl loc id → P (fun monitor => declarationRule (w monitor) id) env) :
    P (fun monitor => Typing.rule (w monitor) p e) env := by
  cases e with
  | literal loc value =>
    cases value with
    | unit => exact law.fails
    | _ => exact law.pure _
  | name loc id =>
    refine law.get ?_
    cases env.lookupVar? id with
    | none => exact law.fails
    | some t => exact law.pure t
  | unary loc op operand =>
    exact law.bind (hparts 0 _ rfl env) fun _ _ _ => law.require fun _ => law.require fun _ => law.pure _
  | binary loc op lhs rhs => exact law.binaryRule hparts rfl
  | letIn loc id value => exact hlet loc id value rfl
  | ifThen loc test body | whileLoop loc test body =>
    refine law.bind (law.checkCondition (hparts 0 _ rfl)) fun _ env₁ _ => ?_
    exact law.bind (hparts 1 _ rfl env₁) fun _ _ _ => law.pure _
  | ifElse loc test body orelse =>
    refine law.bind (law.checkCondition (hparts 0 _ rfl)) fun _ env₁ _ => ?_
    refine law.bind (hparts 1 _ rfl env₁) fun _ env₂ _ => law.bind (hparts 2 _ rfl env₂) fun _ _ _ => ?_
    exact law.require fun _ => law.pure _
  | forLoop loc varLoc var start test step body => exact law.forRule hparts rfl
  | block loc functions statements => exact hblock loc functions statements rfl
  | call loc callee args => exact law.callRule hparts hcall
  | funDecl loc id => exact hdecl loc id rfl

end
end

end Law
end FrontEnd.Typing
