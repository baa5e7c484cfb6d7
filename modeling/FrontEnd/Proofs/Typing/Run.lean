import FrontEnd.Compile

/-!
# Points of a check

A check is a nest of steps into nodes of the tree and into bodies of functions. Watching it makes the points visible at
which it stands, between one step and the next.

* `Step`, `Entry` : a step, and a step with the environment in which it was made;
* `Point` : where a check stands: the steps that are being made, the step that comes or has just ended, and the
  environment;
* `Monitor`, `watchedTypeOf` : checking under a monitor, which may stop the check at a point; `typeOf_eq_watched` : a
  monitor that never stops it changes nothing;
* `Reaches` : a check reaches a point if a monitor that stops it there, and nowhere else, does stop it, with any fault.
-/

namespace FrontEnd

/-- Whether a fault is one in the types or the names of the program. -/
def Fault.IsTyping (f : Fault) : Prop := ∃ cause loc, f = .typing cause loc

namespace Typing
open Check

/-- A step of a check into the node at a path, or into the body of the closure at a position. -/
inductive Step where
  | node (p : Path) (e : Expr)
  | body (occasion : Occasion) (i : Nat) (site : Path)

/-- A step and the environment in which it is made. -/
structure Entry where
  step : Step
  env : Env

/-- The steps that are being made, innermost first. -/
abbrev Trail := List Entry

namespace Trail

/-- The positions of the closures whose bodies are being walked. -/
def positions (t : Trail) : List Nat :=
  t.filterMap fun entry => match entry.step with
    | .node .. => none
    | .body _ i _ => some i

/-- The paths of the bodies of functions that are being walked. -/
def sites (t : Trail) : List Path :=
  t.filterMap fun entry => match entry.step with
    | .node .. => none
    | .body _ _ site => some site

/-- The paths of the nodes that are being typed. -/
def paths (t : Trail) : List Path :=
  t.filterMap fun entry => match entry.step with
    | .node p _ => some p
    | .body .. => none

end Trail

/-- Whether a step is about to be made or has just been made. -/
inductive Moment where
  | entering (step : Step)
  | leaving (step : Step)

/-- The step that is about to be made or has just been made. -/
def Moment.step : Moment → Step
  | entering step | leaving step => step

/-- Where a check stands. -/
structure Point where
  trail : Trail
  moment : Moment
  env : Env

/-- The faults with which a check is stopped, by the points at which it is. -/
abbrev Monitor := Point → Option Fault

/-- Stops the check if the monitor wants it. -/
def watch (monitor : Monitor) (trail : Trail) (moment : Moment) : Check Unit := do
  match monitor ⟨trail, moment, ← get⟩ with
  | some fault => throw fault
  | none => pure ()

/-- A step with its two points. -/
def watched {α : Type} (monitor : Monitor) (trail : Trail) (step : Step) (inner : Trail → Check α) : Check α := do
  watch monitor trail (.entering step)
  let a ← inner (⟨step, ← get⟩ :: trail)
  watch monitor trail (.leaving step)
  return a

mutual

/-- `typeOf` under a monitor. -/
def watchedTypeOf (monitor : Monitor) : (limit : Nat) → Trail → Path → Expr → Check Ty
  | 0, _, _, _ => throw (.internal .nestedTooDeeply)
  | limit + 1, trail, p, e =>
    watched monitor trail (.node p e) fun trail => do
      let t ← rule ⟨watchedTypeOf monitor limit trail, watchedClosure monitor limit trail⟩ p e
      note p t
      return t

/-- `checkClosure` under a monitor. -/
def watchedClosure (monitor : Monitor) : (limit : Nat) → Trail → Occasion → Nat → Check Unit
  | 0, _, _, _ => throw (.internal .nestedTooDeeply)
  | limit + 1, trail, occasion, i => do
    let site := ((← get).closure i).site
    watched monitor trail (.body occasion i site) fun trail =>
      bodyRule ⟨watchedTypeOf monitor limit trail, watchedClosure monitor limit trail⟩ occasion i

end

/-- The walker under a monitor. -/
def watchedWalker (monitor : Monitor) (limit : Nat) (trail : Trail) : Walker :=
  ⟨watchedTypeOf monitor limit trail, watchedClosure monitor limit trail⟩

/-- `check` under a monitor. -/
def watchedCheck (monitor : Monitor) (p : Path) (e : Expr) : Check Ty := do
  watchedTypeOf monitor (nestingLimit (← get) e.nodeCount) [] p e

/-- The monitor that stops a check with `fault` at one point. -/
noncomputable def stopAt (point : Point) (fault : Fault) : Monitor :=
  open Classical in fun q => if q = point then some fault else none

/-- A check of the tree `e` at `p` that starts in `env` comes to `point`. -/
def Reaches (p : Path) (e : Expr) (env : Env) (point : Point) : Prop :=
  ∀ fault, ∃ env', watchedCheck (stopAt point fault) p e env = .error fault env'

/-! ## Running under a monitor -/

theorem get_bind_apply {α : Type} (f : Env → Check α) (env : Env) : ((get : Check Env) >>= f) env = f env env := rfl

theorem changeOr_apply (cause : InternalError) (change : Env → Option Env) (env : Env) :
    changeOr cause change env =
      match change env with
      | none => .error (.internal cause) env
      | some env' => .ok () env' := by
  unfold changeOr
  rw [get_bind_apply]
  cases change env <;> rfl

theorem declaringFrames_apply (scope : Nat) (env : Env) :
    declaringFrames scope env =
      (env.declaringFrames? scope).elim (.error (.internal (.absentScope scope)) env) (.ok · env) := by
  rw [declaringFrames, get_bind_apply]
  cases env.declaringFrames? scope <;> rfl

theorem registered_apply (id : Text) (env : Env) :
    registered id env = (env.lookupFun? id).elim (.error (.internal (.unregistered id)) env) (.ok · env) := by
  rw [registered, get_bind_apply]
  cases env.lookupFun? id <;> rfl

theorem bind_apply {α β : Type} (x : Check α) (f : α → Check β) (env : Env) :
    (x >>= f) env =
      match x env with
      | .ok a env' => f a env'
      | .error fault env' => .error fault env' := by
  show EStateM.bind x f env = _
  unfold EStateM.bind
  cases x env <;> rfl

theorem bind_error {α β : Type} {x : Check α} {f : α → Check β} {env env' : Env} {fault : Fault}
    (h : x env = .error fault env') : (x >>= f) env = .error fault env' := by
  rw [bind_apply, h]

/-- What a step does in the environment `inner`, with the environment that one comes back to from where it ends. -/
def comingBack {α : Type} (x : Check α) (inner : Env) (back : Env → Env) : EStateM.Result Fault Env α :=
  match x inner with
  | .ok a env => .ok a (back env)
  | .error fault env => .error fault (back env)

theorem inNewFrame_error {α : Type} {x : Check α} {env env' : Env} {fault : Fault}
    (h : x env.enter = .error fault env') : inNewFrame x env = .error fault env'.leave := by
  unfold inNewFrame
  rw [h]

theorem watch_apply (monitor : Monitor) (t : Trail) (moment : Moment) (env : Env) :
    watch monitor t moment env =
      match monitor ⟨t, moment, env⟩ with
      | some fault => .error fault env
      | none => .ok () env := by
  rw [watch, get_bind_apply]
  cases monitor ⟨t, moment, env⟩ <;> rfl

theorem watched_stopped {α : Type} {monitor : Monitor} {t : Trail} {step : Step} {env : Env} {fault : Fault}
    (inner : Trail → Check α) (h : monitor ⟨t, .entering step, env⟩ = some fault) :
    watched monitor t step inner env = .error fault env := by
  rw [watched, bind_apply, watch_apply, h]

theorem watched_apply {α : Type} {monitor : Monitor} {t : Trail} {step : Step} {env : Env} (inner : Trail → Check α)
    (h : monitor ⟨t, .entering step, env⟩ = none) :
    watched monitor t step inner env =
      match inner (⟨step, env⟩ :: t) env with
      | .error fault env' => .error fault env'
      | .ok a env' =>
        match monitor ⟨t, .leaving step, env'⟩ with
        | some fault => .error fault env'
        | none => .ok a env' := by
  rw [watched, bind_apply, watch_apply, h]
  dsimp only
  rw [get_bind_apply, bind_apply]
  cases inner (⟨step, env⟩ :: t) env with
  | error fault env' => rfl
  | ok a env' =>
    dsimp only
    rw [bind_apply, watch_apply]
    cases monitor ⟨t, .leaving step, env'⟩ <;> rfl

theorem watched_error {α : Type} {monitor : Monitor} {t : Trail} {step : Step} {env env' : Env} {fault : Fault}
    {inner : Trail → Check α} (h : monitor ⟨t, .entering step, env⟩ = none)
    (hinner : inner (⟨step, env⟩ :: t) env = .error fault env') :
    watched monitor t step inner env = .error fault env' := by
  rw [watched_apply inner h, hinner]

/-! ## Checks without a monitor -/

/-- The monitor that stops no check. -/
def noMonitor : Monitor := fun _ => none

@[simp] theorem watched_noMonitor {α : Type} (trail : Trail) (step : Step) (inner : Trail → Check α) (env : Env) :
    watched noMonitor trail step inner env = inner (⟨step, env⟩ :: trail) env := by
  show EStateM.bind (inner (⟨step, env⟩ :: trail)) (fun a => EStateM.pure a) env = _
  unfold EStateM.bind
  cases inner (⟨step, env⟩ :: trail) env <;> rfl

theorem walker_eq_watched (limit : Nat) (trail : Trail) : watchedWalker noMonitor limit trail = walker limit := by
  induction limit generalizing trail with
  | zero => rfl
  | succ limit ih =>
    unfold watchedWalker walker at ih ⊢
    congr 1
    · funext p e env
      rw [watchedTypeOf, watched_noMonitor, ih]
      rfl
    · funext occasion i env
      rw [watchedClosure]
      rw [get_bind_apply, watched_noMonitor, ih]
      rfl

theorem typeOf_eq_watched (limit : Nat) (trail : Trail) : watchedTypeOf noMonitor limit trail = typeOf limit :=
  congrArg Walker.typeOf (walker_eq_watched limit trail)

theorem check_eq_watched (p : Path) (e : Expr) : watchedCheck noMonitor p e = check p e := by
  funext env
  show watchedTypeOf noMonitor _ [] p e env = typeOf _ p e env
  rw [typeOf_eq_watched]

end Typing
end FrontEnd
