import FrontEnd.Scope

/-!
# Steps of checking

* `Check` : a step of checking. It changes the environment, and what it has changed stays when it fails;
* `Check.inNewFrame`, `Check.inFrames` : running a step in a frame of its own, and in other frames;
* `Check.leave`, `Check.bindVar`, `Check.register`, `Check.registered`, … : the operations on scopes, which fail where
  they have no meaning.
-/

namespace FrontEnd

/-- A step of checking. -/
abbrev Check := EStateM Fault Env

namespace Check
variable {α : Type}

/-- A fault in the types of the program. -/
def refuse (cause : TypeError) (loc : Location) : Check α := throw (.typing cause loc)

/-- The result of a change that is possible only in some environments. -/
def changeOr (cause : InternalError) (change : Env → Option Env) : Check Unit := do
  match change (← get) with
  | some env => set env
  | none => throw (.internal cause)

/-- `step` in a new innermost frame, which is closed again however the step ends. -/
def inNewFrame (step : Check α) : Check α := fun env =>
  match step env.enter with
  | .ok a env' => .ok a env'.leave
  | .error fault env' => .error fault env'.leave

/-- `step` with other frames open. The frames that are open now are back afterwards, however the step ends. -/
def inFrames (frames : List Frame) (step : Check α) : Check α := fun env =>
  match step { env with frames } with
  | .ok a env' => .ok a { env' with frames := env.frames }
  | .error fault env' => .error fault { env' with frames := env.frames }

/-- Opens a frame. -/
def enter : Check Unit := modify (·.enter)

/-- Closes the innermost frame. -/
def leave : Check Unit := changeOr .unmatchedLeave fun env => if env.frames.isEmpty then none else some env.leave

/-- The number of the innermost frame. -/
def currentScope : Check Nat := do
  match (← get).currentScope? with
  | some id => return id
  | none => throw (.internal .noOpenScope)

/-- Binds a variable in the innermost frame. -/
def bindVar (id : Text) (t : Ty) : Check Unit := changeOr .noOpenScope (·.bindVar? id t)

/-- Registers a function whose body is at `site`. -/
def register (id : Text) (function : Function) (site : Path) : Check Unit :=
  changeOr .noOpenScope (·.register? id function site)

/-- Lets the functions of the innermost frame see each other. -/
def linkSiblings : Check Unit := changeOr .noOpenScope (·.linkSiblings?)

/-- Notes the type of the node at `p`. -/
def note (p : Path) (t : Ty) : Check Unit := modify fun env => { env with notes := env.notes.setType p t }

/-- Changes the progress of a closure. -/
def setProgress (i : Nat) (progress : Progress) : Check Unit := modify (·.setProgress i progress)

/-- The position of the closure of the function `id`, which has to be registered. -/
def registered (id : Text) : Check Nat := do
  match (← get).lookupFun? id with
  | none => throw (.internal (.unregistered id))
  | some i => return i

/-- Marks the function `id` as being checked, and gives the position of its closure. -/
def declare (id : Text) : Check Nat := do
  let i ← registered id
  setProgress i .checking
  return i

/-- The frames that the functions of the frame numbered `scope` are checked in. -/
def declaringFrames (scope : Nat) : Check (List Frame) := do
  match (← get).declaringFrames? scope with
  | none => throw (.internal (.absentScope scope))
  | some frames => return frames

end Check

end FrontEnd
