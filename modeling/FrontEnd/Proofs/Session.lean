import FrontEnd.Proofs.Dictionary
import FrontEnd.Proofs.Scope
import FrontEnd.Proofs.Typing.Run

/-!
# Sessions of several environments

Environments that are cut out of others, or that a closure has captured, share the closures and the supply of frame
numbers with them, and are opened and closed like any other.

* `Operation` : what can be done with an environment; `Operation.run` : doing it, which may fail and may derive another
  environment;
* `Session` : the environments derived so far, and what they share; `Session.perform`, `Session.run` : an operation on
  one of them, and a sequence of operations;
* `WellLinked` : a stack of frames is numbered outwards in decreasing order, and every function of a frame is that of a
  closure which was registered there;
* `Env.Sound`, `Env.Keeps`, `Env.Sound.safe_run` : every operation keeps the stacks well linked, and closures where they
  were registered;
* `wellLinked_run` : so do sequences of operations, on all environments and in all that closures have captured.
-/

namespace FrontEnd

/-- What can be done with an environment of a session. -/
inductive Operation where
  | enter
  | leave
  | bindVar (id : Text) (t : Ty)
  | register (id : Text) (function : Function) (site : Path)
  | linkSiblings
  | declare (id : Text)
  /-- Derives the environment of the frames from the one with a number outwards. -/
  | declaringFrames (scope : Nat)
  /-- Derives the environment that a closure has captured. -/
  | capturedFrames (i : Nat)

/-- Does what `op` says, and gives the frames of the environment that it derives. -/
def Operation.run (op : Operation) : Check (Option (List Frame)) :=
  match op with
  | enter => do Check.enter; return none
  | leave => do Check.leave; return none
  | bindVar id t => do Check.bindVar id t; return none
  | register id function site => do Check.register id function site; return none
  | linkSiblings => do Check.linkSiblings; return none
  | declare id => do let _ ← Check.declare id; return none
  | declaringFrames scope => do return some (← Check.declaringFrames scope)
  | capturedFrames i => do return (← get).closures[i]?.map (·.captured)

/-- The open frames of the environments derived so far, the first one in front, and what they all share. -/
structure Session where
  environments : List (List Frame) := [[]]
  closures : Array Closure := #[]
  nextScope : Nat := 0
  notes : Notes := {}
deriving Inhabited

namespace Session

/-- The environment of the session in which `frames` are open. -/
def env (s : Session) (frames : List Frame) : Env := { s with frames }

/-- `s` after an operation on the environment number `k`, whether it fails or not. A number that is none leaves `s` as
it is. -/
def perform (s : Session) (k : Nat) (op : Operation) : Session :=
  match s.environments[k]? with
  | none => s
  | some frames =>
    match op.run (s.env frames) with
    | .ok derived env => { env with environments := s.environments.set k env.frames ++ derived.toList }
    | .error _ env => { env with environments := s.environments.set k env.frames }

/-- The session after operations, each on the environment with the number that stands with it. -/
def run (operations : List (Nat × Operation)) : Session :=
  operations.foldl (fun s (k, op) => s.perform k op) {}

/-- Whether `frames` are those of an environment, or captured by a closure. -/
def Holds (s : Session) (frames : List Frame) : Prop :=
  frames ∈ s.environments ∨ ∃ (i : Nat) (c : Closure), s.closures[i]? = some c ∧ c.captured = frames

end Session

/-! ## Well-linked stacks -/

structure WellLinked (closures : Array Closure) (nextScope : Nat) (frames : List Frame) : Prop where
  decreasing : (frames.map (·.id)).Pairwise (· > ·)
  bounded : ∀ f ∈ frames, f.id < nextScope
  registered : ∀ f ∈ frames, ∀ id i, f.funs.find? id = some i → ∃ c, closures[i]? = some c ∧ c.scope = f.id

namespace WellLinked
variable {closures closures' : Array Closure} {nextScope nextScope' : Nat} {f : Frame} {frames fs : List Frame}

theorem nil : WellLinked closures nextScope [] := ⟨.nil, by simp, by simp⟩

/-- Stacks stay well linked while closures are added and numbers are given out. -/
theorem mono (h : WellLinked closures nextScope frames)
    (hc : ∀ (i : Nat) (c : Closure), closures[i]? = some c → ∃ c', closures'[i]? = some c' ∧ c'.scope = c.scope)
    (hn : nextScope ≤ nextScope') : WellLinked closures' nextScope' frames := by
  refine ⟨h.decreasing, fun f hf => Nat.lt_of_lt_of_le (h.bounded f hf) hn, fun f hf id i hi => ?_⟩
  obtain ⟨c, hci, hs⟩ := h.registered f hf id i hi
  obtain ⟨c', hci', hs'⟩ := hc i c hci
  exact ⟨c', hci', hs'.trans hs⟩

theorem of_suffix (h : WellLinked closures nextScope frames) (hs : fs <:+ frames) :
    WellLinked closures nextScope fs :=
  ⟨h.decreasing.sublist (hs.map _).sublist, fun f hf => h.bounded f (hs.subset hf),
    fun f hf => h.registered f (hs.subset hf)⟩

/-- Another innermost frame with the same number, of which every function is registered there. -/
theorem replace {f' : Frame} (h : WellLinked closures nextScope (f :: fs)) (hid : f'.id = f.id)
    (hr : ∀ id i, f'.funs.find? id = some i → ∃ c, closures[i]? = some c ∧ c.scope = f.id) :
    WellLinked closures nextScope (f' :: fs) := by
  refine ⟨?_, List.forall_mem_cons.2 ⟨?_, fun g hg => h.bounded g (.tail _ hg)⟩,
    List.forall_mem_cons.2 ⟨?_, fun g hg => h.registered g (.tail _ hg)⟩⟩
  · rw [List.map_cons, hid]
    exact h.decreasing
  · rw [hid]
    exact h.bounded f List.mem_cons_self
  · rw [hid]
    exact hr

theorem cons_new (h : WellLinked closures nextScope frames) :
    WellLinked closures (nextScope + 1) ({ id := nextScope } :: frames) := by
  refine ⟨?_, ?_, ?_⟩
  · refine List.pairwise_cons.2 ⟨fun id hid => ?_, h.decreasing⟩
    obtain ⟨f, hf, rfl⟩ := List.mem_map.1 hid
    exact h.bounded f hf
  · refine List.forall_mem_cons.2 ⟨Nat.lt_succ_self _, fun f hf => Nat.lt_succ_of_lt (h.bounded f hf)⟩
  · refine List.forall_mem_cons.2 ⟨fun id i hi => ?_, h.registered⟩
    cases hi

end WellLinked

/-! ## What operations keep -/

namespace Env

/-- The open frames and those that closures have captured are well linked; the latter end at the frame of the
registration. -/
structure Sound (env : Env) : Prop where
  frames : WellLinked env.closures env.nextScope env.frames
  captured : ∀ (i : Nat) (c : Closure), env.closures[i]? = some c →
    WellLinked env.closures env.nextScope c.captured ∧ c.captured.head?.map (·.id) = some c.scope

/-- Closures stay where they were registered, and numbers are not given out again. -/
structure Keeps (env env' : Env) : Prop where
  closures : ∀ (i : Nat) (c : Closure), env.closures[i]? = some c →
    ∃ c', env'.closures[i]? = some c' ∧ c'.scope = c.scope
  nextScope : env.nextScope ≤ env'.nextScope

theorem keeps_frames (env : Env) (frames : List Frame) : Keeps env { env with frames } :=
  ⟨fun _ c h => ⟨c, h, rfl⟩, Nat.le_refl _⟩

theorem Keeps.refl (env : Env) : Keeps env env := keeps_frames env env.frames

theorem Keeps.trans {env env' env'' : Env} (h : Keeps env env') (h' : Keeps env' env'') : Keeps env env'' := by
  refine ⟨fun i c hc => ?_, Nat.le_trans h.nextScope h'.nextScope⟩
  obtain ⟨c', hc', hs⟩ := h.closures i c hc
  obtain ⟨c'', hc'', hs'⟩ := h'.closures i c' hc'
  exact ⟨c'', hc'', hs'.trans hs⟩

theorem Keeps.holds {env env' : Env} (h : Keeps env env') {i : Nat} (hc : ∃ c, env.closures[i]? = some c) :
    ∃ c, env'.closures[i]? = some c := by
  obtain ⟨c, hc⟩ := hc
  obtain ⟨c', hc', -⟩ := h.closures i c hc
  exact ⟨c', hc'⟩

/-- The outcome of a step is a sound environment in which closures are what they were, also when the step fails; so is
the environment that is derived. -/
def Safe (env : Env) : EStateM.Result Fault Env (Option (List Frame)) → Prop
  | .ok derived env' =>
    env'.Sound ∧ Keeps env env' ∧ ∀ frames ∈ derived, WellLinked env'.closures env'.nextScope frames
  | .error _ env' => env'.Sound ∧ Keeps env env'

namespace Sound
variable {env env' : Env}

theorem with_frames (h : env.Sound) {frames : List Frame} (hf : WellLinked env.closures env.nextScope frames) :
    Sound { env with frames } := ⟨hf, h.captured⟩

theorem enter (h : env.Sound) : env.enter.Sound := by
  refine ⟨h.frames.cons_new, fun i c hc => ?_⟩
  obtain ⟨hcaptured, hhead⟩ := h.captured i c hc
  exact ⟨hcaptured.mono (fun _ c h => ⟨c, h, rfl⟩) (Nat.le_succ _), hhead⟩

theorem leave (h : env.Sound) : env.leave.Sound :=
  h.with_frames (h.frames.of_suffix (List.tail_suffix _))

theorem exists_closure (h : env.Sound) {id : Text} {i : Nat} (hi : env.lookupFun? id = some i) :
    ∃ c, env.closures[i]? = some c := by
  obtain ⟨f, fs, hs, hf⟩ := exists_of_lookupFun? hi
  obtain ⟨c, hc, -⟩ := h.frames.registered f (hs.subset List.mem_cons_self) id i hf
  exact ⟨c, hc⟩

theorem bindVar? {id : Text} {t : Ty} (h : env.Sound) (hb : env.bindVar? id t = some env') :
    env'.Sound ∧ Keeps env env' := by
  obtain ⟨f, fs, hf, rfl⟩ := exists_of_bindVar? hb
  have hframes := hf ▸ h.frames
  exact ⟨h.with_frames (hframes.replace rfl (hframes.registered f List.mem_cons_self)), keeps_frames env _⟩

theorem register? {id : Text} {function : Function} {site : Path} (h : env.Sound)
    (hr : env.register? id function site = some env') : env'.Sound ∧ Keeps env env' := by
  obtain ⟨f, fs, hf, rfl⟩ := exists_of_register? hr
  have hold : ∀ (i : Nat) (c new : Closure), env.closures[i]? = some c → (env.closures.push new)[i]? = some c := by
    intro i c new hc
    have hlt := (Array.getElem?_eq_some_iff.1 hc).1
    rw [Array.getElem?_push_lt hlt, ← hc, Array.getElem?_eq_getElem]
  have hmono : ∀ {frames : List Frame} (new : Closure), WellLinked env.closures env.nextScope frames →
      WellLinked (env.closures.push new) env.nextScope frames := fun new hw =>
    hw.mono (fun i c hc => ⟨c, hold i c new hc, rfl⟩) (Nat.le_refl _)
  have hframes : WellLinked env.closures env.nextScope (f :: fs) := hf ▸ h.frames
  refine ⟨⟨?_, fun i c hc => ?_⟩, fun i c hc => ⟨c, hold i c _ hc, rfl⟩, Nat.le_refl _⟩
  · refine (hmono _ hframes).replace rfl fun id' i hi => ?_
    rw [Dictionary.find?_insert] at hi
    split at hi
    · cases hi
      exact ⟨_, Array.getElem?_push_size, rfl⟩
    · obtain ⟨c, hc, hs⟩ := hframes.registered f List.mem_cons_self id' i hi
      exact ⟨c, hold i c _ hc, hs⟩
  · rw [Array.getElem?_push] at hc
    split at hc
    · cases hc
      exact ⟨hmono _ h.frames, by rw [hf]; rfl⟩
    · obtain ⟨hcaptured, hhead⟩ := h.captured i c hc
      exact ⟨hmono _ hcaptured, hhead⟩

theorem linkSiblings? (h : env.Sound) (hl : env.linkSiblings? = some env') : env'.Sound ∧ Keeps env env' := by
  cases hf : env.frames with
  | nil =>
    unfold Env.linkSiblings? at hl
    rw [hf] at hl
    cases hl
  | cons f fs =>
    obtain ⟨store, hlink, -, hstore⟩ := linkSiblings?_eq hf
    cases hlink.symm.trans hl
    have hscope : ∀ (i : Nat) (c : Closure), env.closures[i]? = some c →
        ∃ c', store[i]? = some c' ∧ c'.scope = c.scope := by
      intro i c hc
      rw [hstore, hc]
      split
      · exact ⟨_, rfl, rfl⟩
      · exact ⟨c, rfl, rfl⟩
    have hmono : ∀ {frames : List Frame}, WellLinked env.closures env.nextScope frames →
        WellLinked store env.nextScope frames := fun hw => hw.mono hscope (Nat.le_refl _)
    have hmem : f ∈ env.frames := hf ▸ List.mem_cons_self
    refine ⟨⟨hmono h.frames, fun i c hc => ?_⟩, hscope, Nat.le_refl _⟩
    rw [hstore] at hc
    split at hc
    · next hsibling =>
      obtain ⟨c, hi, rfl⟩ := Option.map_eq_some_iff.1 hc
      obtain ⟨⟨id, i⟩, hentry, rfl⟩ := List.mem_map.1 hsibling
      -- the closure was registered in the frame whose functions it is shown now
      obtain ⟨c', hi', hs⟩ := h.frames.registered f hmem id i (Dictionary.mem_toList.1 hentry)
      cases hi.symm.trans hi'
      obtain ⟨hcaptured, hhead⟩ := h.captured i c hi
      obtain ⟨_, _, _, _ | ⟨g, gs⟩, _⟩ := c
      · cases hhead
      · have hid : g.id = f.id := (Option.some.inj hhead).trans hs
        refine ⟨(hmono hcaptured).replace rfl fun id' j hj => ?_, hhead⟩
        rw [hid]
        exact (hmono h.frames).registered f hmem id' j hj
    · obtain ⟨hcaptured, hhead⟩ := h.captured i c hc
      exact ⟨hmono hcaptured, hhead⟩

theorem setProgress (h : env.Sound) (i : Nat) (progress : Progress) :
    (env.setProgress i progress).Sound ∧ Keeps env (env.setProgress i progress) := by
  have hscope : ∀ (j : Nat) (c : Closure), env.closures[j]? = some c →
      ∃ c', (env.setProgress i progress).closures[j]? = some c' ∧ c'.scope = c.scope := by
    intro j c hc
    obtain ⟨progress', hc'⟩ := (extends_setProgress env i progress).closures j c hc
    exact ⟨_, hc', rfl⟩
  refine ⟨⟨h.frames.mono hscope (Nat.le_refl _), fun j c hj => ?_⟩, hscope, Nat.le_refl _⟩
  rw [getElem?_setProgress] at hj
  have hold : ∃ c', env.closures[j]? = some c' ∧ c'.captured = c.captured ∧ c'.scope = c.scope := by
    split at hj
    · obtain ⟨c', hc', rfl⟩ := Option.map_eq_some_iff.1 hj
      exact ⟨c', hc', rfl, rfl⟩
    · exact ⟨c, hj, rfl, rfl⟩
  obtain ⟨c', hc', hcaptured, hs⟩ := hold
  rw [← hcaptured, ← hs]
  obtain ⟨hw, hhead⟩ := h.captured j c' hc'
  exact ⟨hw.mono hscope (Nat.le_refl _), hhead⟩

theorem declaringFrames? {scope : Nat} {frames : List Frame} (h : env.Sound)
    (hd : env.declaringFrames? scope = some frames) : WellLinked env.closures env.nextScope frames := by
  unfold Env.declaringFrames? at hd
  split at hd
  · cases hd
  · next f fs hdrop =>
    cases hd
    have hsuffix : f :: fs <:+ env.frames := hdrop ▸ List.dropWhile_suffix _
    have hw := h.frames.of_suffix hsuffix
    exact hw.replace rfl (hw.registered f List.mem_cons_self)

theorem safe_changeOr {cause : InternalError} {change : Env → Option Env} (h : env.Sound)
    (hc : ∀ env', change env = some env' → env'.Sound ∧ Keeps env env') :
    Safe env ((Check.changeOr cause change >>= fun _ => pure none) env) := by
  rw [Typing.bind_apply, Typing.changeOr_apply]
  cases hchange : change env with
  | none => exact ⟨h, keeps_frames env _⟩
  | some env' =>
    obtain ⟨hs, hk⟩ := hc env' hchange
    exact ⟨hs, hk, fun frames hf => by cases hf⟩

end Sound
end Env

open Env in
/-- What an operation does is safe in a sound environment. -/
theorem Env.Sound.safe_run {env : Env} (h : env.Sound) (op : Operation) : Safe env (op.run env) := by
  cases op with
  | enter =>
    refine ⟨h.enter, ⟨fun _ c hc => ⟨c, hc, rfl⟩, Nat.le_succ _⟩, fun frames hf => ?_⟩
    cases hf
  | leave =>
    refine h.safe_changeOr fun env' hleave => ?_
    split at hleave
    · cases hleave
    · cases hleave
      exact ⟨h.leave, keeps_frames env _⟩
  | bindVar id t => exact h.safe_changeOr fun env' hb => h.bindVar? hb
  | register id function site => exact h.safe_changeOr fun env' hr => h.register? hr
  | linkSiblings => exact h.safe_changeOr fun env' hl => h.linkSiblings? hl
  | declare id =>
    have hrun : Operation.run (.declare id) env = (env.lookupFun? id).elim
        (.error (.internal (.unregistered id)) env) fun i => .ok none (env.setProgress i .checking) := by
      show ((Check.registered id >>= _) >>= _ : Check _) env = _
      rw [Typing.bind_apply, Typing.bind_apply, Typing.registered_apply]
      cases env.lookupFun? id <;> rfl
    rw [hrun]
    cases env.lookupFun? id with
    | none => exact ⟨h, keeps_frames env _⟩
    | some i =>
      obtain ⟨hs, hk⟩ := h.setProgress i .checking
      exact ⟨hs, hk, fun frames hf => by cases hf⟩
  | declaringFrames scope =>
    have hrun : Operation.run (.declaringFrames scope) env = match env.declaringFrames? scope with
        | none => .error (.internal (.absentScope scope)) env
        | some frames => .ok (some frames) env := by
      show (Check.declaringFrames scope >>= _ : Check _) env = _
      rw [Typing.bind_apply, Check.declaringFrames, Typing.get_bind_apply]
      cases env.declaringFrames? scope <;> rfl
    rw [hrun]
    cases hd : env.declaringFrames? scope with
    | none => exact ⟨h, keeps_frames env _⟩
    | some frames =>
      refine ⟨h, keeps_frames env _, fun frames' hf => ?_⟩
      cases hf
      exact h.declaringFrames? hd
  | capturedFrames i =>
    refine ⟨h, keeps_frames env _, fun frames hf => ?_⟩
    obtain ⟨c, hc, rfl⟩ := Option.map_eq_some_iff.1 hf
    exact (h.captured i c hc).1

/-! ## Sequences of operations -/

namespace Session

/-- What makes every environment of the session sound. -/
structure Sound (s : Session) : Prop where
  environments : ∀ frames ∈ s.environments, WellLinked s.closures s.nextScope frames
  captured : ∀ (i : Nat) (c : Closure), s.closures[i]? = some c →
    WellLinked s.closures s.nextScope c.captured ∧ c.captured.head?.map (·.id) = some c.scope

theorem Sound.perform {s : Session} (h : s.Sound) (k : Nat) (op : Operation) : (s.perform k op).Sound := by
  unfold Session.perform
  cases hk : s.environments[k]? with
  | none => exact h
  | some frames =>
    have hmem : frames ∈ s.environments := List.mem_of_getElem? hk
    have hsound : (s.env frames).Sound := ⟨h.environments frames hmem, h.captured⟩
    have hrun := hsound.safe_run op
    have hset : ∀ {env : Env}, env.Sound → Env.Keeps (s.env frames) env →
        ∀ fs ∈ s.environments.set k env.frames, WellLinked env.closures env.nextScope fs := by
      intro env hs hkeeps fs hfs
      rcases List.mem_or_eq_of_mem_set hfs with hfs | rfl
      · exact (h.environments fs hfs).mono hkeeps.closures hkeeps.nextScope
      · exact hs.frames
    dsimp only
    cases hresult : op.run (s.env frames) with
    | error fault env =>
      rw [hresult] at hrun
      obtain ⟨hs, hkeeps⟩ := hrun
      exact ⟨hset hs hkeeps, hs.captured⟩
    | ok derived env =>
      rw [hresult] at hrun
      obtain ⟨hs, hkeeps, hderived⟩ := hrun
      refine ⟨fun fs hfs => ?_, hs.captured⟩
      rcases List.mem_append.1 hfs with hfs | hfs
      · exact hset hs hkeeps fs hfs
      · exact hderived fs (Option.mem_toList.1 hfs)

theorem sound_run (operations : List (Nat × Operation)) : (run operations).Sound := by
  have go : ∀ s : Session, s.Sound → (operations.foldl (fun s (k, op) => s.perform k op) s).Sound := by
    induction operations with
    | nil => exact fun s h => h
    | cons operation operations ih => exact fun s h => ih _ (h.perform _ _)
  refine go {} ⟨?_, fun i c hc => ?_⟩
  · rintro frames hf
    rw [List.mem_singleton.1 hf]
    exact .nil
  · simp at hc

theorem Sound.holds {s : Session} (h : s.Sound) {frames : List Frame} (hf : s.Holds frames) :
    WellLinked s.closures s.nextScope frames := by
  rcases hf with hf | ⟨i, c, hc, rfl⟩
  · exact h.environments frames hf
  · exact (h.captured i c hc).1

/-- A function that is found in well-linked frames is found in those that its closure's number cuts out of them. -/
theorem lookupFun?_declaringFrames? {s : Session} {frames : List Frame} {id : Text} {i : Nat}
    (h : WellLinked s.closures s.nextScope frames) (hi : (s.env frames).lookupFun? id = some i) :
    ∃ c outer, s.closures[i]? = some c ∧ (s.env frames).declaringFrames? c.scope = some outer ∧
      outer.head?.map (·.id) = some c.scope ∧ (s.env outer).lookupFun? id = some i := by
  obtain ⟨f, fs, hs, hf⟩ := Env.exists_of_lookupFun? hi
  obtain ⟨c, hc, hscope⟩ := h.registered f (hs.subset List.mem_cons_self) id i hf
  refine ⟨c, Frame.outline (f :: fs), hc, ?_, congrArg some hscope.symm, ?_⟩
  · rw [hscope]
    exact Env.declaringFrames?_eq h.decreasing hs
  · show List.findSome? _ ({ f with vars := ∅ } :: fs) = some i
    rw [List.findSome?_cons, hf]

/-- After any operations on any environments of a session, also ones that fail, each environment and all that closures
have captured is well linked. So a function that is found anywhere is found again, as the same closure, in the frames
from the one outwards in which it was registered. -/
theorem wellLinked_run (operations : List (Nat × Operation)) (frames : List Frame)
    (hf : (run operations).Holds frames) :
    WellLinked (run operations).closures (run operations).nextScope frames ∧
      ∀ id i, ((run operations).env frames).lookupFun? id = some i →
        ∃ c outer, (run operations).closures[i]? = some c ∧
          ((run operations).env frames).declaringFrames? c.scope = some outer ∧
          outer.head?.map (·.id) = some c.scope ∧ ((run operations).env outer).lookupFun? id = some i := by
  have hw := (sound_run operations).holds hf
  exact ⟨hw, fun id i hi => lookupFun?_declaringFrames? hw hi⟩

/-- Two functions that see each other, an environment that one of them has captured and in which a frame is opened, and
operations that fail. -/
def fork : List (Nat × Operation) :=
  let f : Function := ⟨⟨"f", {}, [], .int⟩, .literal {} (.int 1)⟩
  let g : Function := ⟨⟨"g", {}, [], .int⟩, .call {} "f" []⟩
  [(0, .enter), (0, .bindVar "x" .int), (0, .register "f" f [0, 0]), (0, .register "g" g [1, 0]), (0, .linkSiblings),
    (0, .capturedFrames 0), (1, .enter), (1, .declare "g"), (1, .declaringFrames 7), (0, .leave), (0, .leave)]

theorem wellLinked_fork : ∃ frames, (run fork).Holds frames ∧ frames.map (·.id) = [1, 0] ∧
    WellLinked (run fork).closures (run fork).nextScope frames ∧
    ∃ c outer, (run fork).closures[1]? = some c ∧ ((run fork).env frames).declaringFrames? c.scope = some outer ∧
      outer.head?.map (·.id) = some c.scope ∧ ((run fork).env outer).lookupFun? "g" = some 1 := by
  have hholds : (run fork).Holds ((run fork).environments.getD 1 []) := .inl (List.mem_of_getElem? (i := 1) rfl)
  obtain ⟨hw, hfound⟩ := wellLinked_run fork _ hholds
  exact ⟨_, hholds, rfl, hw, hfound "g" 1 rfl⟩

end Session
end FrontEnd
