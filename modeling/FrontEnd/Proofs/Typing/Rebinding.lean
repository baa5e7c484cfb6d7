import FrontEnd.Proofs.Typing.Ledger
import FrontEnd.Proofs.Typing.Programs
import FrontEnd.Proofs.Typing.Steps

/-!
# Bindings that are made twice

A binding is refused if its name is bound in the frame already when it starts. Its value may bind the name after that.

* `Walker.Records`, `Records.rule`, `walker_records` : a check under monitors has a ledger if no binding of the tree has
  a value that binds its name;
* `exists_ledger` : so one ledger has the types of all variables at all points of such a check;
* `check_of_refused` : a check that comes to a binding whose name the frame has fails there;
* `stopAt_leaving` : a check can be stopped where a step ends, `singleBinding` : programs in which that is where a
  binding is made, or is about to be made;
* `bindings_of_check` : which bindings replace others, and that variables keep their types where none does.
-/

namespace FrontEnd.Typing
open FrontEnd.Expr Env Check

/-- A way to go on with a check under monitors that has ledgers for its steps. -/
structure Walker.Records (w : Monitor → Walker) : Prop where
  typeOf : ∀ p e env, e.Apart p → Typing.Records True (fun monitor => (w monitor).typeOf p e) env
  checkClosure : ∀ occasion i env, Typing.Records True (fun monitor => (w monitor).checkClosure occasion i) env
  binds : (w noMonitor).Binds

namespace Records
variable {own : Prop} {α β : Type} {env : Env} {p : Path} {loc : Location}

theorem law : Law (Records True) := ⟨pure, fails, bind, get, note, bindVar, inNewFrame⟩

/-- The frames in which a body is checked follow a ledger if the open ones and those that closures have captured do. -/
theorem in_of_bodyFrames {occasion : Occasion} {i : Nat} {frames : List Frame} {env' : Env}
    (hrun : Typing.bodyFrames occasion (env.closure i) env = .ok frames env') :
    env' = env ∧ ∀ ρ, Recorded ρ env → ∀ f ∈ frames, f.In ρ env.nextScope := by
  cases occasion with
  | declaration =>
    cases hrun
    exact ⟨rfl, fun ρ hr => (hr.closure i).captured⟩
  | call =>
    simp only [Typing.bodyFrames, declaringFrames_apply] at hrun
    cases hopen : env.frames.dropWhile (·.id != (env.closure i).scope) with
    | nil =>
      simp only [declaringFrames?, hopen] at hrun
      cases hrun
    | cons g gs =>
      simp only [declaringFrames?, hopen] at hrun
      cases hrun
      have hsuffix : g :: gs <:+ env.frames := hopen ▸ List.dropWhile_suffix _
      exact ⟨rfl, fun ρ hr => Frame.In.outline fun f hf => hr.frames f (hsuffix.subset hf)⟩

theorem bodyFrames (occasion : Occasion) (i : Nat) :
    Records own (fun _ => Typing.bodyFrames occasion (env.closure i)) env := by
  refine of_kept fun ρ hr he frames env' hrun => ?_
  obtain ⟨rfl, -⟩ := in_of_bodyFrames hrun
  exact ⟨hr, he, Nat.le_refl _, rfl, rfl⟩

theorem registerAll (i : Nat) (functions : List Function)
    (h : ∀ (k : Nat) f, functions[k]? = some f → f.body.Apart ((i + k) :: p)) :
    Records own (fun _ => Typing.registerAll p i functions) env := by
  induction functions generalizing i env with
  | nil => exact pure ()
  | cons f fs ih =>
    refine get (require fun _ => ?_)
    refine (register (h 0 f rfl)).bind fun _ _ _ => ih (i + 1) fun k f' hk => ?_
    rw [show i + 1 + k = i + (k + 1) by omega]
    exact h (k + 1) f' hk

section
variable {w : Monitor → Walker} (hw : Walker.Records w)
include hw

theorem checkFunction {site : Path} {f : Function} (hf : f.body.Apart site) :
    Records own (fun monitor => Typing.checkFunction (w monitor) site f) env := by
  have hbody : Records own (fun monitor => Check.inNewFrame do
      Typing.bindParameters f.signature.loc f.signature.params
      (w monitor).typeOf site f.body) env :=
    inNewFrame ((law.bindParameters _).bind fun _ _ _ => hw.typeOf _ _ _ hf)
  refine hbody.bind fun t env₁ _ => get ?_
  dsimp only
  by_cases hret : env₁.notes.returnOf site f.signature = .any
  · simp only [if_pos hret]
    exact (notes (·.setReturn site t)).bind fun _ _ _ => pure t
  · simp only [if_neg hret]
    exact require fun _ => pure t

theorem bodyRule (occasion : Occasion) (i : Nat) :
    Records own (fun monitor => Typing.bodyRule (w monitor) occasion i) env := by
  refine (setProgress _ _).bind fun _ env₁ _ => get (assuming fun ρ hr => ?_)
  refine (bodyFrames occasion i).bind fun frames env₂ hrun => ?_
  obtain ⟨rfl, hframes⟩ := in_of_bodyFrames hrun
  exact (inFrames (checkFunction hw (hr.closure i).apart) hframes).bind fun _ _ _ => setProgress _ _

theorem declarationRule (name : Text) :
    Records True (fun monitor => Typing.declarationRule (w monitor) name) env :=
  (law.registered name).bind fun _ _ _ => (hw.checkClosure _ _ _).bind fun _ _ _ => pure _

theorem typeStatements {i : Nat} {last : Ty} {es : List Expr}
    (he : ∀ (k : Nat) e, es[k]? = some e → e.Apart ((i + k) :: p)) :
    Records True (fun monitor => Typing.typeStatements (w monitor) p i last es) env := by
  induction es generalizing i last env with
  | nil => exact pure last
  | cons e es ih =>
    refine (hw.typeOf _ _ _ (he 0 e rfl)).bind fun ty _ _ => ih fun k e' hk => ?_
    rw [show i + 1 + k = i + (k + 1) by omega]
    exact he (k + 1) e' hk

theorem blockRule {functions : List Function} {statements : List Expr}
    (h : (Expr.block loc functions statements).Apart p) :
    Records own (fun monitor => Typing.blockRule (w monitor) p functions statements) env := by
  refine inNewFrame ((registerAll 0 functions fun k f hk => ?_).bind fun _ _ _ => linkSiblings.bind fun _ _ _ =>
    typeStatements hw fun k e hk => h.part (children_of_statements hk))
  rw [Nat.zero_add]
  exact h.part (children_of_functions hk)

theorem letRule {id : Text} {value : Expr} (h : (Expr.letIn loc id value).Apart p) :
    Records True (fun monitor => Typing.letRule (w monitor) p loc id value) env := by
  refine get (require fun hfree => ?_)
  refine (hw.typeOf _ _ _ (h.part (k := 0) rfl)).bind fun t env₁ hrun => ?_
  -- the value has not bound the name either
  have hfree₁ : env₁.hasVar id = false := by
    rw [← Bool.not_eq_true, ((hw.binds.typeOf _ _).of_ok hrun).hasVar]
    exact not_or.2 ⟨hfree, h.binding⟩
  exact (bindVar t hfree₁).bind fun _ _ _ => pure _

theorem rule {e : Expr} (h : e.Apart p) : Records True (fun monitor => Typing.rule (w monitor) p e) env := by
  refine law.rule (fun k part hk env => hw.typeOf _ _ env (h.part hk)) (fun i env _ => hw.checkClosure _ i env)
    ?_ ?_ ?_
  · rintro loc id value rfl
    exact letRule hw h
  · rintro loc functions statements rfl
    exact blockRule hw h
  · rintro loc name rfl
    exact declarationRule hw name

end
end Records

theorem walker_records (limit : Nat) (t : Trail) : Walker.Records fun monitor => watchedWalker monitor limit t := by
  induction limit generalizing t with
  | zero => exact ⟨fun _ _ _ _ => .fails, fun _ _ _ => .fails, by rw [walker_eq_watched]; exact walker_binds 0⟩
  | succ limit ih =>
    refine ⟨fun p e env h => ?_, fun occasion i env => ?_, by rw [walker_eq_watched]; exact walker_binds _⟩
    · simp only [watchedWalker, watchedTypeOf]
      refine Records.watched ?_
      exact (Records.rule (ih _) h).bind fun ty _ _ => (Records.note p ty).bind fun _ _ _ => .pure ty
    · simp only [watchedWalker, watchedClosure]
      refine Records.get (Records.watched ?_)
      exact Records.bodyRule (ih _) occasion i

theorem recorded_empty : Recorded (fun _ _ => none) {} := ⟨by simp, by simp, fun _ _ _ => rfl⟩

/-- There is one ledger for all points of the check of a tree without bindings whose values bind their names. -/
theorem exists_ledger {ρ : Ledger} {p : Path} {e : Expr} {env : Env} (hr : Recorded ρ env) (he : Exact ρ env)
    (h : e.Apart p) : ∃ ρ' : Ledger, ∀ point, Reaches p e env point → point.Follows ρ' := by
  obtain ⟨ρ', -, hpass, -⟩ := (walker_records (nestingLimit env e.nodeCount) []).typeOf p e env h ρ hr fun _ => he
  refine ⟨ρ', @Reaches.of_passed _ _ _ (·.Follows ρ') fun monitor hmon => ?_⟩
  rw [← check_eq_watched]
  exact hpass monitor hmon

/-! ## Stopping a check -/

/-- A binding is about to be made whose name the innermost frame has, and `fault` says so. -/
def Point.Refused (point : Point) (fault : Fault) : Prop := ∃ p loc id value,
  point.moment = .entering (.node p (.letIn loc id value)) ∧ point.env.hasVar id = true ∧
    fault = .typing (.variableExists id) loc

theorem Point.Refused.typeOf_eq {t : Trail} {p : Path} {e : Expr} {env : Env} {fault : Fault}
    (h : Point.Refused ⟨t, .entering (.node p e), env⟩ fault) (limit : Nat) :
    typeOf (limit + 1) p e env = .error fault env := by
  obtain ⟨q, loc, id, value, hm, hvar, rfl⟩ := h
  cases hm
  have hvar : env.hasVar id = true := hvar
  have hrefuse : letRule ⟨typeOf limit, checkClosure limit⟩ p loc id value env =
      .error (.typing (.variableExists id) loc) env := by
    rw [letRule, get_bind_apply, if_pos hvar]
    rfl
  exact bind_error hrefuse

/-- A monitor changes nothing inside a step if it stops only what is refused there anyway. -/
theorem watchedWalker_of_refused {monitor : Monitor} {t : Trail}
    (h : ∀ point fault, t.length ≤ point.trail.length → monitor point = some fault → point.Refused fault)
    (limit : Nat) : watchedWalker monitor limit t = walker limit := by
  induction limit generalizing t with
  | zero => rfl
  | succ limit ih =>
    have hinside : ∀ entry, (⟨watchedTypeOf monitor limit (entry :: t), watchedClosure monitor limit (entry :: t)⟩ :
        Walker) = walker limit :=
      fun entry => ih fun point fault hp => h point fault (Nat.le_of_succ_le hp)
    have hother : ∀ moment env, (∀ p e, moment ≠ .entering (.node p e)) → monitor ⟨t, moment, env⟩ = none := by
      refine fun moment env hno => Option.eq_none_iff_forall_ne_some.2 fun fault hm => ?_
      obtain ⟨p, loc, id, value, hentering, -⟩ := h _ fault (Nat.le_refl _) hm
      exact hno _ _ hentering
    unfold watchedWalker walker
    congr 1
    · funext p e env
      rw [watchedTypeOf]
      cases hm : monitor ⟨t, .entering (.node p e), env⟩ with
      | some fault => rw [watched_stopped _ hm, (h _ fault (Nat.le_refl _) hm).typeOf_eq]
      | none =>
        rw [watched_passed _ hm fun _ _ _ => hother _ _ (by simp), hinside]
        rfl
    · funext occasion i env
      rw [watchedClosure, get_bind_apply, watched_passed _ (hother _ _ (by simp)) fun _ _ _ => hother _ _ (by simp),
        hinside]
      rfl

/-- A check that comes to a binding whose name the frame has fails there. -/
theorem check_of_refused {p : Path} {e : Expr} {env : Env} {point : Point} {fault : Fault} (h : Reaches p e env point)
    (hrefused : point.Refused fault) : ∃ env', check p e env = .error fault env' := by
  obtain ⟨env', hstop⟩ := h fault
  have hsame : ∀ limit, watchedWalker (stopAt point fault) limit [] = walker limit := by
    refine watchedWalker_of_refused fun q fault' _ hq => ?_
    rw [stopAt] at hq
    split at hq
    · next heq =>
      cases hq
      exact heq ▸ hrefused
    · cases hq
  have hcheck : watchedCheck (stopAt point fault) p e env = check p e env := by
    show (watchedWalker _ _ []).typeOf p e env = (walker _).typeOf p e env
    rw [hsame]
  exact ⟨env', hcheck.symm.trans hstop⟩

/-- A check is stopped where the walk of a node ends. -/
theorem stopAt_leaving {limit : Nat} {t : Trail} {p : Path} {e : Expr} {env env' : Env} {ty : Ty}
    (hrun : typeOf (limit + 1) p e env = .ok ty env') (fault : Fault) :
    watchedTypeOf (stopAt ⟨t, .leaving (.node p e), env'⟩ fault) (limit + 1) t p e env = .error fault env' := by
  have hinside : watchedWalker (stopAt ⟨t, .leaving (.node p e), env'⟩ fault) limit (⟨.node p e, env⟩ :: t) =
      walker limit := by
    refine watchedWalker_of_refused (fun point fault' hp hm => ?_) limit
    have hlonger : t.length < point.trail.length := hp
    cases hm.symm.trans (stopAt_eq_none (Nat.ne_of_gt hlonger) fault)
  have hinner : (rule (walker limit) p e >>= fun ty => do
      note p ty
      return ty) env = .ok ty env' := hrun
  unfold watchedWalker at hinside
  rw [watchedTypeOf, watched_apply _ (if_neg (by simp)), hinside, hinner]
  simp [stopAt]

/-! ## Programs of one binding -/

/-- The program `let x=…`. -/
def bindingOf (value : Expr) : Expr := .letIn ⟨"a", 1, 1⟩ "x" value

def singleBinding (value : Expr) : Expr := .block ⟨"a", 1, 1⟩ [] [bindingOf value]

/-- Where the binding is made. -/
def singleTrail (value : Expr) : Trail := [⟨.node [0] (singleBinding value), {}⟩]

/-- Where its value is typed. -/
def valueTrail (value : Expr) : Trail := ⟨.node [0, 0] (bindingOf value), ({} : Env).enter⟩ :: singleTrail value

section
variable {value : Expr} {limit : Nat} {env : Env} {ty : Ty}
variable (hl : nestingLimit {} (singleBinding value).nodeCount = limit + 3)
include hl

theorem reaches_of_binding {point : Point} (hlength : 1 ≤ point.trail.length)
    (h : ∀ fault, ∃ env, watchedTypeOf (stopAt point fault) (limit + 2) (singleTrail value) [0, 0] (bindingOf value)
      ({} : Env).enter = .error fault env) : Reaches programRoot (singleBinding value) {} point := by
  intro fault
  obtain ⟨env, hbinding⟩ := h fault
  have hprogram : stopAt point fault ⟨[], .entering (.node [0] (singleBinding value)), {}⟩ = none :=
    stopAt_eq_none (by simp only [List.length_nil]; omega) fault
  refine ⟨env.leave, ?_⟩
  show watchedTypeOf (stopAt point fault) (nestingLimit {} _) [] [0] (singleBinding value) {} = _
  rw [hl, watchedTypeOf]
  exact watched_error hprogram (bind_error (blockRule_error rfl rfl (bind_error hbinding)))

theorem reaches_bound (hrun : typeOf (limit + 2) [0, 0] (bindingOf value) ({} : Env).enter = .ok ty env) :
    Reaches programRoot (singleBinding value) {}
      ⟨singleTrail value, .leaving (.node [0, 0] (bindingOf value)), env⟩ :=
  reaches_of_binding hl (Nat.le_refl 1) fun fault => ⟨env, stopAt_leaving hrun fault⟩

theorem reaches_value (hrun : typeOf (limit + 1) [0, 0, 0] value ({} : Env).enter = .ok ty env) :
    Reaches programRoot (singleBinding value) {} ⟨valueTrail value, .leaving (.node [0, 0, 0] value), env⟩ := by
  refine reaches_of_binding hl (Nat.le_succ 1) fun fault => ⟨env, ?_⟩
  rw [watchedTypeOf]
  refine watched_error (stopAt_eq_none (by simp [singleTrail, valueTrail]) fault) (bind_error ?_)
  show (watchedTypeOf _ _ (valueTrail value) [0, 0, 0] value >>= fun _ => _) _ = _
  exact bind_error (stopAt_leaving hrun fault)

end

/-- The value of the binding binds the same name, in the same frame. -/
def rebindingValue : Expr :=
  .ifThen ⟨"a", 1, 7⟩ (.literal ⟨"a", 1, 10⟩ (.bool true)) (.letIn ⟨"a", 1, 15⟩ "x" (.literal ⟨"a", 1, 21⟩ (.int 1)))

theorem readProgram_rebinding :
    readProgram (.ofSources [⟨"let x=if(true)let x=1", "a"⟩]) = .ok (singleBinding rebindingValue) := by
  with_unfolding_all rfl

/-- The value of the binding binds the same name, in a frame of its own. -/
def enclosedValue : Expr := .block ⟨"a", 1, 7⟩ [] [.letIn ⟨"a", 1, 8⟩ "x" (.literal ⟨"a", 1, 14⟩ (.int 1))]

theorem readProgram_enclosed :
    readProgram (.ofSources [⟨"let x={let x=1}", "a"⟩]) = .ok (singleBinding enclosedValue) := by
  with_unfolding_all rfl

theorem apart_enclosed : (singleBinding enclosedValue).Apart programRoot := by
  intro q loc id value hmem
  have hvalue : value = enclosedValue ∨ value = .literal ⟨"a", 1, 14⟩ (.int 1) := by
    simp only [nodes, nodesOf, singleBinding, bindingOf, enclosedValue, children, List.map_nil, List.nil_append,
      List.append_nil, List.mem_cons, Prod.mk.injEq, Expr.letIn.injEq, reduceCtorEq, List.not_mem_nil] at hmem
    tauto
  rcases hvalue with rfl | rfl <;> simp [enclosedValue, bindings]

/-! ## Bindings -/

/-- A check fails where a binding starts whose name is bound in the frame already. Where the value of a binding has been
typed, its name is bound in the frame just if the value has bound it there. In a program without such bindings none is
replaced, and the variables of a frame keep their types. -/
theorem bindings_of_check {tokens : TokenStream} {program : Expr} (h : readProgram tokens = .ok program) :
    (∀ env point, Reaches programRoot program env point → point.Rebinds ∧ ∀ p loc id value,
      point.moment = .entering (.node p (.letIn loc id value)) → point.env.hasVar id = true →
        ∃ env', check programRoot program env = .error (.typing (.variableExists id) loc) env') ∧
      (program.Apart programRoot →
        (∀ point, Reaches programRoot program {} point → ∀ id value env₀, point.Binding id value env₀ →
          point.env.hasVar id = false) ∧
        ∀ point point', Reaches programRoot program {} point → Reaches programRoot program {} point' →
          ∀ f ∈ point.env.frames, ∀ f' ∈ point'.env.frames, f.id = f'.id →
            ∀ id t t', f.vars.find? id = some t → f'.vars.find? id = some t' → t = t') := by
  refine ⟨fun env point hp => ⟨rebinds_of_reaches hp, fun p loc id value hm hvar => ?_⟩, fun hapart => ⟨?_, ?_⟩⟩
  · exact check_of_refused hp ⟨p, loc, id, value, hm, hvar, rfl⟩
  · intro point hp id value env₀ hbinding
    have hvar := (rebinds_of_reaches hp id value env₀ hbinding).2.2
    obtain ⟨p, loc, rest, ht, -⟩ := hbinding
    obtain ⟨env', hnested⟩ := (regular_of_reaches (isProgram_of_readProgram h) hp).nested
    have hmem := hnested.mem_nodes (.tail _ (ht ▸ List.mem_cons_self))
    rw [← Bool.not_eq_true, hvar]
    exact hapart p loc id value hmem
  · obtain ⟨ρ, hρ⟩ := exists_ledger recorded_empty (by rintro _ ⟨⟩) hapart
    intro point point' hp hp' f hf f' hf' hid id t t' ht ht'
    have hfound := hρ point hp f hf id t ht
    have hfound' := hρ point' hp' f' hf' id t' ht'
    rw [hid, hfound'] at hfound
    exact (Option.some.inj hfound).symm

/-- A program that checks, although its binding replaces one in the same frame, with another type. -/
theorem rebinding_checks : ∃ program point point' f f',
    readProgram (.ofSources [⟨"let x=if(true)let x=1", "a"⟩]) = .ok program ∧ (checkProgram program).1 = .ok .unit ∧
      Reaches programRoot program {} point ∧ (∃ value env₀, point.Binding "x" value env₀) ∧
      point.env.hasVar "x" = true ∧ Reaches programRoot program {} point' ∧ point.env.frames = [f] ∧
      point'.env.frames = [f'] ∧ f.id = f'.id ∧ f.vars.find? "x" = some .int ∧ f'.vars.find? "x" = some .unit := by
  have hvalue : ∃ env f, typeOf 96 [0, 0, 0] rebindingValue ({} : Env).enter = .ok .unit env ∧ env.frames = [f] ∧
      f.id = 0 ∧ f.vars.find? "x" = some .int := ⟨_, _, rfl, rfl, rfl, rfl⟩
  have hbinding : ∃ env f, typeOf 97 [0, 0] (bindingOf rebindingValue) ({} : Env).enter = .ok .unit env ∧
      env.frames = [f] ∧ f.id = 0 ∧ f.vars.find? "x" = some .unit := ⟨_, _, rfl, rfl, rfl, rfl⟩
  have hl : nestingLimit {} (singleBinding rebindingValue).nodeCount = 95 + 3 := rfl
  obtain ⟨env, f, hrun, hframes, hid, hvar⟩ := hvalue
  obtain ⟨env', f', hrun', hframes', hid', hvar'⟩ := hbinding
  refine ⟨_, _, _, f, f', readProgram_rebinding, rfl, reaches_value hl hrun, ?_, ?_,
    reaches_bound hl hrun', hframes, hframes', hid.trans hid'.symm, hvar, hvar'⟩
  · exact ⟨_, _, _, _, _, rfl, rfl⟩
  · simp only [hasVar, hframes, List.head?_cons, Option.any_some, Dictionary.contains, hvar, Option.isSome_some]

theorem enclosed_keeps : ∃ point env₀, point.Binding "x" enclosedValue env₀ ∧
    Reaches programRoot (singleBinding enclosedValue) {} point ∧ point.env.hasVar "x" = false := by
  have hl : nestingLimit {} (singleBinding enclosedValue).nodeCount = 69 + 3 := rfl
  have hvalue : ∃ env, typeOf 70 [0, 0, 0] enclosedValue ({} : Env).enter = .ok .unit env := ⟨_, rfl⟩
  obtain ⟨env, hrun⟩ := hvalue
  have hreaches := reaches_value hl hrun
  have hbinding : Point.Binding ⟨valueTrail enclosedValue, .leaving (.node [0, 0, 0] enclosedValue), env⟩ "x"
      enclosedValue ({} : Env).enter := ⟨_, _, _, rfl, rfl⟩
  obtain ⟨-, hkept⟩ := bindings_of_check readProgram_enclosed
  exact ⟨_, _, hbinding, hreaches, (hkept apart_enclosed).1 _ hreaches _ _ _ hbinding⟩

end FrontEnd.Typing
