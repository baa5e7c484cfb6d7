import FrontEnd.Proofs.Syntax.Reading
import FrontEnd.Proofs.Typing.Checking
import FrontEnd.Proofs.Typing.Limit

/-!
# Checks of whole programs

* `check_simulates` : the check of a program follows its declarative typing;
* `regular_of_reaches` : it comes to regular points only;
* `isTyping_of_check_eq_error` : it fails with typing faults only.
-/

namespace FrontEnd.Typing
open FrontEnd.Expr Env Check

section
variable {program : Expr} {env : Env} {fault : Fault}

theorem isProgram_of_readProgram {tokens : TokenStream} (h : readProgram tokens = .ok program) : program.IsProgram := by
  have hyields := readProgram_yields tokens
  rwa [h] at hyields

theorem nestingLimit_empty_le (env : Env) (nodes : Nat) : nestingLimit {} nodes ≤ nestingLimit env nodes := by
  have hsize : nodes ≤ env.closures.foldl (fun n c => n + c.function.body.nodeCount) nodes := by
    rw [← Array.foldl_toList]
    induction env.closures.toList generalizing nodes with
    | nil => exact Nat.le_refl _
    | cons c cs ih => exact Nat.le_trans (Nat.le_add_right _ _) (ih _)
  exact Nat.mul_le_mul_left 2 (Nat.mul_le_mul (Nat.succ_le_succ hsize) (Nat.succ_le_succ hsize))

theorem two_mul_le_nestingLimit (env : Env) (nodes : Nat) : 2 * nodes ≤ nestingLimit env nodes := by
  refine Nat.le_trans ?_ (nestingLimit_empty_le env nodes)
  exact Nat.mul_le_mul_left 2 (Nat.le_trans (Nat.le_succ _) (Nat.le_mul_of_pos_right _ (Nat.succ_pos _)))

theorem check_simulates (n : Notes) (monitor : Monitor) (hp : program.IsProgram)
    (hmon : ∀ point, Regular programRoot program point → monitor point = none) :
    Simulates programRoot program n [] (watchedCheck monitor programRoot program) {}
      (Judge.typeOf (settle n programRoot program)) fun ty _ => ty ≠ .any := by
  obtain ⟨hwf, hblock⟩ := hp
  refine .get ?_
  have hsound := sound (n := n) hwf hmon (nestingLimit {} program.nodeCount)
  exact hsound.node .root (two_mul_le_nestingLimit _ _) hwf (.inl hblock)

theorem regular_of_reaches (hp : program.IsProgram) {point : Point} (h : Reaches programRoot program {} point) :
    Regular programRoot program point := by
  by_contra hno
  have hmon : ∀ q, Regular programRoot program q → stopAt point (.parse .unexpectedEnd {}) q = none := by
    intro q hq
    rw [stopAt, if_neg]
    rintro rfl
    exact hno hq
  have hsim := check_simulates {} _ hp hmon .empty
  obtain ⟨env', hrun⟩ := h (.parse .unexpectedEnd {})
  rw [hrun] at hsim
  obtain ⟨⟨cause, loc, heq⟩, -⟩ := hsim
  cases heq

theorem isTyping_of_check_eq_error (hp : program.IsProgram) (h : check programRoot program {} = .error fault env) :
    fault.IsTyping := by
  have hsim := check_simulates {} noMonitor hp (fun _ _ => rfl) .empty
  rw [check_eq_watched, h] at hsim
  exact hsim.1

theorem typeOf_eq_check (hp : program.IsProgram) {limit : Nat} (hl : 2 * program.nodeCount ≤ limit) :
    typeOf limit programRoot program {} = check programRoot program {} := by
  have hsound : Sound programRoot program {} noMonitor (2 * program.nodeCount) := sound hp.1 (fun _ _ => rfl) _
  have hsim := hsound.node .root (Nat.le_refl _) hp.1 (.inl hp.2) .empty
  rw [typeOf_eq_watched] at hsim
  have least : ∀ limit', 2 * program.nodeCount ≤ limit' →
      typeOf (2 * program.nodeCount) programRoot program {} = typeOf limit' programRoot program {} := by
    intro limit' hl'
    rcases typeOf_approximates hl' programRoot program {} with heq | ⟨env', herror⟩
    · exact heq
    · rw [herror] at hsim
      obtain ⟨⟨cause, loc, heq⟩, -⟩ := hsim
      cases heq
  exact (least limit hl).symm.trans (least _ (two_mul_le_nestingLimit _ _))

end

theorem stopAt_eq_none {q point : Point} (h : q.trail.length ≠ point.trail.length) (fault : Fault) :
    stopAt point fault q = none :=
  if_neg fun heq => h (by rw [heq])

/-! ## A call in front of a declaration -/

namespace ForwardCall

/-- A program that calls a function in front of its declaration. -/
def source : Source := ⟨"f();fun f():int=1", "a"⟩

def function : Function := ⟨⟨"f", ⟨"a", 1, 5⟩, [], .int⟩, .literal ⟨"a", 1, 17⟩ (.int 1)⟩

def call : Expr := .call ⟨"a", 1, 1⟩ "f" []

def program : Expr := .block ⟨"a", 1, 1⟩ [function] [call, declarationOf function.signature]

theorem readProgram_source : readProgram (.ofSources [source]) = .ok program := by
  with_unfolding_all rfl

def frame : Frame := { id := 0, funs := (∅ : Dictionary Nat).insert "f" 0 }

/-- The environment in which the call is typed. -/
def callEnv : Env where
  frames := [frame]
  closures := #[{ function, site := [0, 0], captured := [frame], scope := 0 }]
  nextScope := 1

/-- The environment in which the body is typed, which the call has checked. -/
def bodyEnv : Env := (callEnv.inBody 0 (Frame.outline [frame])).enter

def callTrail : Trail := [⟨.node [1, 0] call, callEnv⟩, ⟨.node [0] program, {}⟩]

/-- Where the call is about to have the body checked. -/
def callPoint : Point := ⟨callTrail, .entering (.body .call 0 [0, 0]), callEnv⟩

/-- Where the body is about to be typed. -/
def bodyPoint : Point := ⟨⟨.body .call 0 [0, 0], callEnv⟩ :: callTrail, .entering (.node [0, 0] function.body), bodyEnv⟩

section
variable {w : Walker} {fault : Fault} {env : Env}

theorem bodyRule_function_error (h : w.typeOf [0, 0] function.body bodyEnv = .error fault env) :
    ∃ env', bodyRule w .call 0 callEnv = .error fault env' := by
  have hframes : bodyFrames .call ((callEnv.setProgress 0 .checking).closure 0) (callEnv.setProgress 0 .checking) =
      .ok (Frame.outline [frame]) (callEnv.setProgress 0 .checking) := rfl
  have hparameters : (bindParameters ⟨"a", 1, 5⟩ [] >>= fun _ => w.typeOf [0, 0] function.body) bodyEnv =
      .error fault env := h
  have hcheck : checkFunction w [0, 0] function (callEnv.inBody 0 (Frame.outline [frame])) = .error fault env.leave :=
    bind_error (inNewFrame_error hparameters)
  exact ⟨_, Simulates.bodyRule_error rfl hframes hcheck⟩

theorem rule_call_error (h : w.checkClosure .call 0 callEnv = .error fault env) :
    rule w [1, 0] call callEnv = .error fault env := by
  show (w.checkClosure .call 0 >>= fun _ => _) callEnv = _
  exact bind_error h

theorem rule_program_error (h : w.typeOf [1, 0] call callEnv = .error fault env) :
    rule w [0] program {} = .error fault env.leave := by
  have hregister : registerAll [0] 0 [function] ({} : Env).enter =
      .ok () { callEnv with closures := callEnv.closures.modify 0 ({ · with captured := [{ id := 0 }] }) } := rfl
  have hstatements : typeStatements w [0] 1 .unit [call, declarationOf function.signature] callEnv = .error fault env :=
    bind_error h
  exact blockRule_error hregister rfl hstatements

end

/-- What stops at the call, or inside it, is a point that the check of the program comes to. -/
theorem reaches_of_call {point : Point} (hlength : 2 ≤ point.trail.length)
    (h : ∀ fault, ∃ env, watchedClosure (stopAt point fault) 48 callTrail .call 0 callEnv = .error fault env) :
    Reaches programRoot program {} point := by
  intro fault
  obtain ⟨env, hclosure⟩ := h fault
  have hcall : stopAt point fault ⟨[⟨.node [0] program, {}⟩], .entering (.node [1, 0] call), callEnv⟩ = none :=
    stopAt_eq_none (by simp only [List.length_cons, List.length_nil]; omega) fault
  have hprogram : stopAt point fault ⟨[], .entering (.node [0] program), {}⟩ = none :=
    stopAt_eq_none (by simp only [List.length_nil]; omega) fault
  have hnode : watchedTypeOf (stopAt point fault) 49 [⟨.node [0] program, {}⟩] [1, 0] call callEnv =
      .error fault env := by
    rw [watchedTypeOf]
    exact watched_error hcall (bind_error (rule_call_error hclosure))
  refine ⟨env.leave, ?_⟩
  show watchedTypeOf (stopAt point fault) 50 [] [0] program {} = _
  rw [watchedTypeOf]
  exact watched_error hprogram (bind_error (rule_program_error hnode))

theorem reaches_callPoint : Reaches programRoot program {} callPoint := by
  refine reaches_of_call (Nat.le_refl 2) fun fault => ⟨callEnv, ?_⟩
  rw [watchedClosure, get_bind_apply]
  exact watched_stopped _ (if_pos rfl)

theorem reaches_bodyPoint : Reaches programRoot program {} bodyPoint := by
  refine reaches_of_call (Nat.le_succ 2) fun fault => ?_
  have hentering : stopAt bodyPoint fault ⟨callTrail, .entering (.body .call 0 [0, 0]), callEnv⟩ = none :=
    stopAt_eq_none (by simp [bodyPoint]) fault
  have hbody : watchedTypeOf (stopAt bodyPoint fault) 47 bodyPoint.trail [0, 0] function.body bodyEnv =
      .error fault bodyEnv := by
    rw [watchedTypeOf]
    exact watched_stopped _ (if_pos rfl)
  have hwalker : (watchedWalker (stopAt bodyPoint fault) 47 bodyPoint.trail).typeOf [0, 0] function.body bodyEnv =
      .error fault bodyEnv := hbody
  obtain ⟨env, hrun⟩ := bodyRule_function_error hwalker
  refine ⟨env, ?_⟩
  rw [watchedClosure, get_bind_apply]
  exact watched_error hentering hrun

end ForwardCall

/-! ## Points -/

/-- The check of a program ends, whatever its limit, if that is at least twice the number of the program's nodes. At
each of its points the closures in progress are those whose bodies are being walked, and these are bodies of different
functions. -/
theorem check_terminates_without_reentry {tokens : TokenStream} {program : Expr}
    (h : readProgram tokens = .ok program) :
    (∀ limit, 2 * program.nodeCount ≤ limit → typeOf limit programRoot program {} = check programRoot program {}) ∧
      (∀ fault env, check programRoot program {} = .error fault env → fault ≠ .internal .nestedTooDeeply) ∧
      ∀ point, Reaches programRoot program {} point →
        (∀ i, (∃ c, point.env.closures[i]? = some c ∧ c.progress = .checking) ↔ i ∈ point.trail.positions) ∧
          (∀ occasion i site env, ⟨.body occasion i site, env⟩ ∈ point.trail →
            ∃ c, point.env.closures[i]? = some c ∧ c.site = site ∧ Places programRoot program site c.function) ∧
          (Trail.sites (⟨point.moment.step, point.env⟩ :: point.trail)).Nodup := by
  have hp := isProgram_of_readProgram h
  refine ⟨fun limit hl => typeOf_eq_check hp hl, fun fault env hcheck heq => ?_, fun point hr => ?_⟩
  · obtain ⟨cause, loc, hfault⟩ := isTyping_of_check_eq_error hp hcheck
    rw [heq] at hfault
    cases hfault
  · have hregular := regular_of_reaches hp hr
    have hwalked : ∀ occasion i site env, ⟨.body occasion i site, env⟩ ∈ point.trail →
        ∃ c, point.env.closures[i]? = some c ∧ c.site = site ∧ Places programRoot program site c.function := by
      intro occasion i site env hm
      obtain ⟨f, hreg⟩ := hregular.consistent.walked occasion i site env hm
      obtain ⟨c, hc, rfl, rfl⟩ := hreg.closure
      exact ⟨c, hc, rfl, hregular.consistent.placed i c hc⟩
    refine ⟨fun i => ⟨?_, fun hi => ?_⟩, hwalked, ?_⟩
    · rintro ⟨c, hc, hprogress⟩
      exact (hregular.consistent.checking i c hc).1 hprogress
    · obtain ⟨occasion, site, env, hm⟩ := Trail.mem_positions.1 hi
      obtain ⟨c, hc, -⟩ := hwalked occasion i site env hm
      exact ⟨c, hc, (hregular.consistent.checking i c hc).2 hi⟩
    · obtain ⟨env, hnested⟩ := hregular.nested
      have hnodup := hnested.sites_nodup
      cases hstep : point.moment.step <;> rw [hstep] at hnodup <;> exact hnodup

theorem forwardCall_terminates :
    typeOf 8 programRoot ForwardCall.program {} = check programRoot ForwardCall.program {} ∧
      ∃ c, ForwardCall.bodyEnv.closures[0]? = some c ∧ c.progress = .checking := by
  obtain ⟨hlimit, -, hpoints⟩ := check_terminates_without_reentry ForwardCall.readProgram_source
  exact ⟨hlimit 8 (by decide), ((hpoints _ ForwardCall.reaches_bodyPoint).1 0).2 (by decide)⟩

/-- Wherever a function is looked up, the frames that a call cuts out of the open ones are those that the closure has
captured; so they are in particular where a call has a body checked. -/
theorem declaringFrames?_eq_captured {tokens : TokenStream} {program : Expr} (h : readProgram tokens = .ok program)
    {point : Point} (hr : Reaches programRoot program {} point) :
    (∀ id i, point.env.lookupFun? id = some i → ∃ c, point.env.closures[i]? = some c ∧
      point.env.declaringFrames? c.scope = some c.captured) ∧
    ∀ i site, point.moment = .entering (.body .call i site) → ∃ c, point.env.closures[i]? = some c ∧
      c.progress = .unchecked ∧ point.env.declaringFrames? c.scope = some c.captured := by
  have hregular := regular_of_reaches (isProgram_of_readProgram h) hr
  have hfound : ∀ id i, point.env.lookupFun? id = some i → ∃ c, point.env.closures[i]? = some c ∧
      point.env.declaringFrames? c.scope = some c.captured := by
    intro id i hi
    obtain ⟨-, -, c, -, -, hc, hframes⟩ := hregular.consistent.linked.closure_of_lookupFun? hi
    exact ⟨c, hc, hframes⟩
  refine ⟨hfound, fun i site hm => ?_⟩
  obtain ⟨hprogress, p, loc, callee, args, env, rest, -, hi⟩ := hregular.called i site hm
  obtain ⟨c, hc, hframes⟩ := hfound callee i hi
  rw [closure_eq hc] at hprogress
  exact ⟨c, hc, hprogress, hframes⟩

theorem forwardCall_captured : ∃ c, ForwardCall.callEnv.closures[0]? = some c ∧ c.progress = .unchecked ∧
    ForwardCall.callEnv.declaringFrames? c.scope = some c.captured :=
  (declaringFrames?_eq_captured ForwardCall.readProgram_source ForwardCall.reaches_callPoint).2 0 [0, 0] rfl

end FrontEnd.Typing
