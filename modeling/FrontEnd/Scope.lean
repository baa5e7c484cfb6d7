import FrontEnd.Dictionary
import FrontEnd.Fault
import FrontEnd.Notes

/-!
# Scopes

A program is checked against a stack of frames, one for each open block, loop and function body. A function of a block
is held as a closure: the function together with the frames that were open where it was registered. Frames name their
functions by the closures' positions in a store, which all environments of a session share, as they share the notes
and the supply of frame numbers.

* `Frame`, `Progress`, `Closure`, `Env` : frames, how far the check of a function has come, closures, and an
  environment with its session;
* `Env.enter`, `Env.leave` : opening and closing a frame;
* `Env.bindVar?`, `Env.register?`, `Env.linkSiblings?` : binding a variable, registering a function, and letting the
  functions of the innermost frame see each other;
* `Env.lookupVar?`, `Env.lookupFun?` : the innermost binding of a name;
* `Env.declaringFrames?` : the frames from the one with a given number outwards, without that frame's variables.

Lists of frames have the innermost frame in front.
-/

namespace FrontEnd

/-- The names bound in one block, loop or function body. -/
structure Frame where
  id : Nat
  vars : Dictionary Ty := ∅
  /-- Functions, by the positions of their closures. -/
  funs : Dictionary Nat := ∅
deriving Inhabited

/-- How far the check of a function's body has come. -/
inductive Progress where
  | unchecked | checking | checked
deriving DecidableEq, Inhabited

/-- The name of a stage of progress. -/
def Progress.name : Progress → Text
  | unchecked => "Unchecked"
  | checking => "Checking"
  | checked => "Checked"

/-- A registered function. -/
structure Closure where
  function : Function
  /-- The path of the function's body. -/
  site : Path
  progress : Progress := .unchecked
  /-- The frames that were open where the function was registered. -/
  captured : List Frame
  /-- The number of the frame that the function was registered in. -/
  scope : Nat
deriving Inhabited

/-- The closure with `funs` as the functions of the frame that it was registered in. -/
def Closure.withSiblings (c : Closure) (funs : Dictionary Nat) : Closure :=
  { c with captured := c.captured.modifyHead fun f => { f with funs } }

/-- The open frames, and what all environments of a session share. -/
structure Env where
  frames : List Frame := []
  closures : Array Closure := #[]
  nextScope : Nat := 0
  notes : Notes := {}
deriving Inhabited

namespace Env

/-! ## Frames -/

/-- The number of open frames. -/
def depth (e : Env) : Nat := e.frames.length

/-- `e` with a new innermost frame. -/
def enter (e : Env) : Env := { e with frames := { id := e.nextScope } :: e.frames, nextScope := e.nextScope + 1 }

/-- `e` without its innermost frame. -/
def leave (e : Env) : Env := { e with frames := e.frames.tail }

/-- The number of the innermost frame. -/
def currentScope? (e : Env) : Option Nat := e.frames.head?.map (·.id)

/-- `e` with its innermost frame changed, if a frame is open. -/
def modifyInnermost? (e : Env) (change : Frame → Frame) : Option Env :=
  match e.frames with
  | [] => none
  | f :: fs => some { e with frames := change f :: fs }

/-! ## Variables -/

/-- Whether the innermost frame binds the variable `id`. -/
def hasVar (e : Env) (id : Text) : Bool := e.frames.head?.any (·.vars.contains id)

/-- `e` with `id` bound in the innermost frame. -/
def bindVar? (e : Env) (id : Text) (t : Ty) : Option Env :=
  e.modifyInnermost? fun f => { f with vars := f.vars.insert id t }

/-- The type of the innermost variable `id`. -/
def lookupVar? (e : Env) (id : Text) : Option Ty := e.frames.findSome? (·.vars.find? id)

/-! ## Functions -/

/-- Whether the innermost frame has a function `id`. -/
def hasFun (e : Env) (id : Text) : Bool := e.frames.head?.any (·.funs.contains id)

/-- `e` with a closure of `function` registered under `id` in the innermost frame. The closure captures the frames as
they are before. -/
def register? (e : Env) (id : Text) (function : Function) (site : Path) : Option Env :=
  match e.frames with
  | [] => none
  | f :: fs =>
    some { e with
      frames := { f with funs := f.funs.insert id e.closures.size } :: fs
      closures := e.closures.push { function, site, captured := e.frames, scope := f.id } }

/-- `e` with every function of the innermost frame seeing all functions of that frame. -/
def linkSiblings? (e : Env) : Option Env :=
  match e.frames with
  | [] => none
  | f :: _ =>
    some { e with
      closures := f.funs.toList.foldl (fun store (_, i) => store.modify i (·.withSiblings f.funs)) e.closures }

/-- The position of the closure of the innermost function `id`. -/
def lookupFun? (e : Env) (id : Text) : Option Nat := e.frames.findSome? (·.funs.find? id)

/-- The closure at position `i`. -/
def closure (e : Env) (i : Nat) : Closure := e.closures.getD i default

/-- `e` with the progress of a closure changed. -/
def setProgress (e : Env) (i : Nat) (progress : Progress) : Env :=
  { e with closures := e.closures.modify i ({ · with progress }) }

/-- The frames from the one numbered `scope` outwards, that one without its variables. -/
def declaringFrames? (e : Env) (scope : Nat) : Option (List Frame) :=
  match e.frames.dropWhile (·.id != scope) with
  | [] => none
  | f :: fs => some ({ f with vars := ∅ } :: fs)

/-- The return type of a closure's function as it stands now. -/
def returnOf (e : Env) (c : Closure) : Ty := e.notes.returnOf c.site c.function.signature

/-! ## Laws -/

@[simp] theorem leave_enter_frames (e : Env) : e.enter.leave.frames = e.frames := rfl

@[simp] theorem depth_enter (e : Env) : e.enter.depth = e.depth + 1 := rfl

theorem lookupVar?_bindVar {e e' : Env} {id id' : Text} {t : Ty} (h : e.bindVar? id t = some e') :
    e'.lookupVar? id' = if id' = id then some t else e.lookupVar? id' := by
  unfold bindVar? modifyInnermost? at h
  split at h
  · cases h
  · next f fs hf =>
    cases h
    simp only [lookupVar?, hf, List.findSome?_cons, Dictionary.find?_insert]
    by_cases hid : id' = id <;> simp [hid]

theorem declaringFrames?_id {e : Env} {scope : Nat} {fs : List Frame} (h : e.declaringFrames? scope = some fs) :
    fs.head?.map (·.id) = some scope := by
  unfold declaringFrames? at h
  split at h
  · cases h
  · next f rest hf =>
    cases h
    have := List.head?_dropWhile_not (·.id != scope) e.frames
    rw [hf] at this
    simpa using this

end Env
end FrontEnd
