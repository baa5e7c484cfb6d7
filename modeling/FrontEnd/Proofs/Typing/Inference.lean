import FrontEnd.Proofs.Compile
import FrontEnd.Proofs.Typing.Blocks
import FrontEnd.Proofs.Typing.Comparison
import FrontEnd.Proofs.Typing.Lexical
import Mathlib.Order.WellFounded

/-!
# Inference of return types is well founded

A function without a return type has that of its body settled when the body has been walked, and a call is refused
while the function it means has none. So a function is settled after all those that the calls in its body mean.

* `Infers` : the return type of a function is inferred with that of another; `Grounded` : following this from a
  function comes to an end;
* `CallsGrounded` : all calls in a tree mean grounded functions, or such that state their return types;
* `Inferred` : what a check keeps: settled functions are grounded, and names of functions are seen as they are meant;
* `inference` : a run, by what it keeps and what it extends; `Walked` : what holds after the walk of a node;
* `Walker.Ensures`, `Ensures.rule`, `Ensures.bodyRule` : the rules ensure it if the way to go on does,
  `walker_ensures` : by induction on the limit;
* `readProgram_inference_wellFounded` : the functions of a program that checks are grounded, all of them.
-/

namespace FrontEnd.Typing
open FrontEnd.Expr Env Check

/-! ## Inference -/

section
variable (root : Path) (program : Expr)

/-- The function at `site` does not state its return type. -/
def Unstated (site : Path) : Prop := ∃ f, Places root program site f ∧ f.signature.ret = .any

/-- Somewhere in the body of the function at `caller`, bodies of functions in it included, is a call that means the
function at `callee`. -/
def Calls (caller callee : Path) : Prop := ∃ f p loc name args, Places root program caller f ∧
  (p, .call loc name args) ∈ nodes caller f.body ∧ Resolves root program name p callee

/-- The return type of the function at `caller` is inferred, and so is that of the function at `callee`, which it
calls. -/
structure Infers (caller callee : Path) : Prop where
  unstated : Unstated root program caller
  callee_unstated : Unstated root program callee
  calls : Calls root program caller callee

/-- What the return type of the function at `site` is inferred with is found in finitely many steps. -/
def Grounded (site : Path) : Prop := Acc (fun callee caller => Infers root program caller callee) site

/-- Calls in the tree `e` at `p` mean functions that are grounded or state their return types. -/
def CallsGrounded (p : Path) (e : Expr) : Prop := ∀ q loc name args site, (q, .call loc name args) ∈ nodes p e →
  Resolves root program name q site → Unstated root program site → Grounded root program site

/-- The tree `e` at `p` is a part of the program, and names of functions are looked up as they are meant there. -/
structure At (env : Env) (p : Path) (e : Expr) : Prop where
  node : (p, e) ∈ nodes root program
  sees : Sees root program env.closures env.frames p

/-- What holds of closures and settled return types during a check. -/
structure Inferred (env : Env) : Prop where
  placed : ∀ (i : Nat) (c : Closure), env.closures[i]? = some c → Places root program c.site c.function
  sees : ∀ (i : Nat) (c : Closure), env.closures[i]? = some c → Sees root program env.closures c.captured c.site
  grounded : ∀ site ty, env.notes.returns[site]? = some ty → Grounded root program site

/-- What the walk of a node finds out in `env`: its calls are grounded, and if it is a declaration, those in the body of
the function are. -/
structure Walked (env : Env) (p : Path) (e : Expr) : Prop where
  calls : CallsGrounded root program p e
  declared : ∀ loc name i c, e = .funDecl loc name → env.lookupFun? name = some i → env.closures[i]? = some c →
    CallsGrounded root program c.site c.function.body

end

section
variable {root p site : Path} {program e : Expr} {env env' : Env} {f : Function}

theorem Grounded.of_body (hf : Places root program site f) (h : CallsGrounded root program site f.body) :
    Grounded root program site := by
  refine Acc.intro site fun callee hinfers => ?_
  obtain ⟨g, q, loc, name, args, hg, hcall, hresolves⟩ := hinfers.calls
  rw [hg.unique hf] at hcall
  exact h q loc name args callee hcall hresolves hinfers.callee_unstated

theorem CallsGrounded.of_parts
    (hcall : ∀ loc name args, e = .call loc name args → ∀ site, Resolves root program name p site →
      Unstated root program site → Grounded root program site)
    (hparts : FoundAll (CallsGrounded root program) p 0 e.children) : CallsGrounded root program p e := by
  intro q loc name args site hmem hresolves hunstated
  rcases mem_nodes.1 hmem with heq | ⟨k, part, hk, hmem⟩
  · obtain ⟨rfl, rfl⟩ := Prod.mk.inj heq
    exact hcall loc name args rfl site hresolves hunstated
  · rw [← Nat.zero_add k] at hmem
    exact hparts k part hk q loc name args site hmem hresolves hunstated

theorem At.extend (h : At root program env p e) (hx : Extends env env') : At root program env' p e :=
  ⟨h.node, h.sees.extend hx⟩

theorem At.enter (h : At root program env p e) : At root program env.enter p e := ⟨h.node, h.sees.enter⟩

theorem At.part {k : Nat} {part : Expr} (h : At root program env p e) (hf : e.functions = [])
    (hk : e.children[k]? = some part) : At root program env (k :: p) part :=
  ⟨part_mem_nodes h.node hk, h.sees.part h.node hf⟩

theorem Inferred.setProgress (h : Inferred root program env) (i : Nat) (progress : Progress) :
    Inferred root program (env.setProgress i progress) := by
  have hclosure : ∀ (j : Nat) (c : Closure), (env.setProgress i progress).closures[j]? = some c →
      ∃ progress, env.closures[j]? = some { c with progress } := by
    intro j c hj
    rw [getElem?_setProgress] at hj
    split at hj
    · obtain ⟨c', hc', rfl⟩ := Option.map_eq_some_iff.1 hj
      exact ⟨c'.progress, hc'⟩
    · exact ⟨c.progress, hj⟩
  refine ⟨fun j c hj => ?_, fun j c hj => ?_, h.grounded⟩
  · obtain ⟨progress', hj⟩ := hclosure j c hj
    have hplaced := h.placed j _ hj
    exact hplaced
  · obtain ⟨progress', hj⟩ := hclosure j c hj
    have hsees := h.sees j _ hj
    exact hsees.grow (extends_setProgress env i progress).toGrows

theorem Inferred.with_frames (h : Inferred root program env) (frames : List Frame) :
    Inferred root program { env with frames } :=
  ⟨h.placed, h.sees, h.grounded⟩

theorem Inferred.setReturn (h : Inferred root program env) (ty : Ty) (hf : Places root program site f)
    (hb : CallsGrounded root program site f.body) :
    Inferred root program { env with notes := env.notes.setReturn site ty } := by
  refine ⟨h.placed, h.sees, fun site' ty' hty => ?_⟩
  simp only [Notes.setReturn, Std.TreeMap.getElem?_insert, Std.LawfulEqCmp.compare_eq_iff_eq] at hty
  split at hty
  · next hs => exact hs ▸ .of_body hf hb
  · exact h.grounded site' ty' hty

/-- A function that has a return type states it or is settled. -/
theorem Inferred.grounded_of_returnOf {i : Nat} {c : Closure} (h : Inferred root program env)
    (hc : env.closures[i]? = some c) (hr : env.returnOf c ≠ .any) (hu : Unstated root program c.site) :
    Grounded root program c.site := by
  obtain ⟨f, hf, hret⟩ := hu
  rw [returnOf, Notes.returnOf, (h.placed i c hc).unique hf, hret] at hr
  cases hty : env.notes.returns[c.site]? with
  | none => simp [hty] at hr
  | some ty => exact h.grounded c.site ty hty

theorem Inferred.registered {loc : Location} {functions : List Function} {statements : List Expr}
    {funs : Dictionary Nat} (h : Inferred root program env) (hreg : Registered p env functions funs (· = funs) env')
    (hat : At root program env p (.block loc functions statements)) : Inferred root program env' := by
  refine ⟨fun i c hi => ?_, fun i c hi => ?_, fun site ty hty => h.grounded site ty (hreg.notes ▸ hty)⟩
  · rcases hreg.closure_cases hi with hi | ⟨k, hk, -, hsite, -⟩
    · exact h.placed i c hi
    · exact ⟨k, p, loc, functions, statements, hsite, hat.node, hk⟩
  · rcases hreg.closure_cases hi with hi | ⟨k, hk, rfl, -, -⟩
    · exact (h.sees i c hi).grow hreg.grows
    · obtain ⟨seen, rfl, hc⟩ := hreg.after k _ hk
      rw [Option.some.inj (hi.symm.trans hc)]
      exact hat.sees.inBlock hreg hat.node

/-- What a later environment makes of a declaration is what an earlier one makes of it. -/
theorem Walked.of_extends (h : Walked root program env' p e) (hx : Extends env env') : Walked root program env p e := by
  refine ⟨h.calls, fun loc name i c he hi hc => ?_⟩
  obtain ⟨progress, hc'⟩ := hx.closures i c hc
  have hcalls := h.declared loc name i _ he (hx.lookupFun?_eq name ▸ hi) hc'
  exact hcalls

theorem Walked.of_not_declaration (h : CallsGrounded root program p e) (hd : e.isDeclaration = false) :
    Walked root program env p e := by
  refine ⟨h, fun loc name i c he => ?_⟩
  rw [he] at hd
  cases hd

/-- The functions of a block are declared by statements, so their bodies are walked with these. -/
theorem Registered.callsGrounded {loc : Location} {functions : List Function} {statements : List Expr}
    {funs : Dictionary Nat} (hreg : Registered p env functions funs (· = funs) env') (hwf : program.WellFormed)
    (hn : (p, .block loc functions statements) ∈ nodes root program)
    (hs : FoundAll (Walked root program env') p functions.length statements) :
    CallsGrounded root program p (.block loc functions statements) := by
  have hblock := (hwf.of_mem_nodes hn).resolve_left (by simp [isDeclaration])
  refine .of_parts (by simp) fun k part hk => ?_
  rw [Nat.zero_add]
  by_cases hlt : k < functions.length
  · -- the body of a function, which one of the statements declares
    have hf : functions[k]? = some functions[k] := List.getElem?_eq_getElem hlt
    obtain rfl := Option.some.inj (hk.symm.trans (children_of_functions hf))
    obtain ⟨j, hj⟩ := List.mem_iff_getElem?.1 (hblock.declaration_mem (List.mem_of_getElem? hf))
    obtain ⟨_, -, hc⟩ := hreg.after k _ hf
    have hlookup : env'.lookupFun? functions[k].signature.name = some (env.closures.size + k) := by
      rw [lookupFun?, hreg.frames, List.findSome?_cons, (hreg.names _ _).2 ⟨k, _, hf, rfl, rfl⟩]
    exact (hs j _ hj).declared _ _ _ _ rfl hlookup hc
  · obtain ⟨j, rfl⟩ := Nat.exists_eq_add_of_le (Nat.le_of_not_lt hlt)
    rw [children, List.getElem?_append_right (by simp)] at hk
    exact (hs j part (by simpa using hk)).calls

end

/-! ## Steps -/

/-- A run in a linked environment, which it extends. -/
def inference (root : Path) (program : Expr) : Comparison :=
  .alone (fun env => env.Linked ∧ Inferred root program env) (fun _ => Extends) fun _ _ _ => True

instance (root : Path) (program : Expr) : (inference root program).Lawful := Comparison.alone_lawful {
  refl := .refl
  trans := .trans
  breaks_refl := fun _ => trivial
  breaks_append := fun _ _ => trivial
  breaks_after := fun _ _ => trivial
  note := fun {env} p t ⟨hl, hi⟩ => by
    have hx : Extends env { env with notes := env.notes.setType p t } :=
      ⟨⟨fun _ c hc => ⟨c.progress, hc⟩, Nat.le_refl _, fun _ _ _ _ => rfl⟩, rfl⟩
    exact ⟨⟨hl.extend hx, hi.placed, hi.sees, hi.grounded⟩, hx⟩
  enter := fun ⟨hl, hi⟩ => ⟨hl.enter, hi.placed, hi.sees, hi.grounded⟩
  leave := fun {_ env env₁} ⟨hl, _⟩ hx ⟨_, hi₁⟩ => by
    have hback : Extends env env₁.leave := hx.leave_eq ▸ ((grows_enter env).trans hx.toGrows).restore
    exact ⟨hback, hl.extend hback, hi₁.with_frames _⟩
  breaks_leave := fun _ => trivial }

/-- A way to go on with a check that walks what it is given. -/
structure Walker.Ensures (root : Path) (program : Expr) (w : Walker) : Prop where
  typeOf : ∀ {p e env}, At root program env p e → (inference root program).Holds e.bindings (w.typeOf p e)
    (w.typeOf p e) env env fun _ => Walked root program env p e
  checkClosure : ∀ {occasion name i c env}, env.lookupFun? name = some i → env.closures[i]? = some c →
    (inference root program).Holds [] (w.checkClosure occasion i) (w.checkClosure occasion i) env env
      fun _ => CallsGrounded root program c.site c.function.body

namespace Ensures
open Comparison
variable {root p : Path} {program e : Expr} {names : List Text} {env env' : Env}

theorem change {f : Env → Env} (h : Inferred root program env → Extends env (f env) ∧ Inferred root program (f env)) :
    (inference root program).Holds names (modify f) (modify f) env env fun _ => True := by
  refine .change fun ⟨⟨hl, hi⟩, _⟩ => ?_
  obtain ⟨hx, hi'⟩ := h hi
  exact ⟨⟨⟨hl.extend hx, hi'⟩, rfl⟩, hx⟩

theorem setProgress (i : Nat) (progress : Progress) : (inference root program).Holds []
    (Check.setProgress i progress) (Check.setProgress i progress) env env' fun _ => True :=
  .of_self (·.2) (change fun hi => ⟨extends_setProgress env i progress, hi.setProgress i progress⟩)

theorem bindVar (id : Text) (t : Ty) :
    (inference root program).Holds [id] (Check.bindVar id t) (Check.bindVar id t) env env' fun _ => True := by
  refine .of_self (·.2) (.changeOr (fun _ hnone _ => hnone) fun env₁ ⟨⟨hl, hi⟩, _⟩ hb => ?_)
  have hi₁ : Inferred root program env₁ := by
    obtain ⟨f, fs, -, rfl⟩ := exists_of_bindVar? hb
    exact hi.with_frames _
  exact ⟨extends_bindVar? hb, env₁, ⟨⟨hl.extend (extends_bindVar? hb), hi₁⟩, rfl⟩, fun _ => hb⟩

/-- When a function is settled its body has been walked, so what it calls is grounded. -/
theorem settleReturn {site : Path} {f : Function} (t : Ty) (hf : Places root program site f)
    (hcalls : CallsGrounded root program site f.body) :
    (inference root program).Holds [] (settleReturn site f t) (settleReturn site f t) env env'
      fun _ => CallsGrounded root program site f.body := by
  refine .settleReturn rfl (fun hr => by rw [hr.2]) (fun hret ⟨⟨hl, hi⟩, henv⟩ => ?_) hcalls
  subst henv
  have hx := extends_setReturn t hf hret hi.placed
  exact ⟨⟨⟨hl.extend hx, hi.setReturn t hf hcalls⟩, rfl⟩, hx⟩

/-! ## Rules -/

section
variable {w : Walker} (hw : w.Ensures root program) {loc : Location}
include hw

theorem checkFunction {site : Path} {f : Function} (hf : Places root program site f)
    (hs : Sees root program env.closures env.frames site) :
    (inference root program).Holds [] (checkFunction w site f) (checkFunction w site f) env env
      fun _ => CallsGrounded root program site f.body := by
  have hat : At root program env.enter site f.body := ⟨hf.body_mem_nodes, hs.enter⟩
  have hbody : ∀ {before env₁ env₁'}, (inference root program).moves before env.enter env₁ →
      (inference root program).Holds f.body.bindings (w.typeOf site f.body) (w.typeOf site f.body) env₁ env₁'
        fun _ => CallsGrounded root program site f.body :=
    fun hx => .of_self (·.2) ((hw.typeOf (hat.extend hx)).weaken fun _ h => h.calls)
  refine .checkFunction ?_ hbody fun t _ _ _ hcalls => settleReturn t hf hcalls
  exact .bindParameters rfl (fun _ _ => trivial) fun _ _ _ _ => bindVar _ _

theorem bodyRule (occasion : Occasion) {name : Text} {i : Nat} {c : Closure} (hi : env.lookupFun? name = some i)
    (hc : env.closures[i]? = some c) :
    (inference root program).Holds [] (bodyRule w occasion i) (bodyRule w occasion i) env env
      fun _ => CallsGrounded root program c.site c.function.body := by
  refine (setProgress i .checking).bind fun _ _ env₁ hx _ => .assuming fun ⟨⟨hl, hinf⟩, henv⟩ => ?_
  subst henv
  obtain ⟨progress, hc₁⟩ := hx.closures i c hc
  obtain ⟨f, fs, hs, hf⟩ := exists_of_lookupFun? ((hx.lookupFun?_eq name).trans hi)
  -- on either occasion the body is checked in the frames that the closure has captured
  have hframes := Simulates.bodyFrames_eq occasion hl hc₁ hs hf
  have hsees : Sees root program env₁.closures (Frame.outline (f :: fs)) c.site := by
    obtain ⟨c', hc', -, hcaptured⟩ := hl.captured f fs hs name i hf
    cases hc₁.symm.trans hc'
    have hsees := hinf.sees i _ hc₁
    rwa [← hcaptured]
  refine .get ?_
  rw [closure_eq hc₁]
  refine .read hframes (fun _ _ => hframes) ?_
  have hplaced := hinf.placed i _ hc₁
  have hbody : (inference root program).Holds [] (Check.inFrames (Frame.outline (f :: fs))
      (Typing.checkFunction w c.site c.function)) (Check.inFrames (Frame.outline (f :: fs))
        (Typing.checkFunction w c.site c.function)) env₁ env₁
      fun _ => CallsGrounded root program c.site c.function.body := by
    refine .inFrames (fun _ => ?_) (checkFunction hw hplaced hsees)
    refine within_alone ⟨hl.of_suffix hs, hinf.with_frames _⟩ (fun hx₂ hi₂ => ?_) fun _ => trivial
    have hg : Grows env₁ _ := ⟨hx₂.closures, hx₂.nextScope, hx₂.returns⟩
    exact ⟨hg.restore, hl.extend hg.restore, hi₂.2.with_frames _⟩
  exact hbody.bind fun _ _ _ _ hcalls => (setProgress i .checked).weaken fun _ _ => hcalls

theorem walks {i : Nat} {es : List Expr}
    (he : ∀ (k : Nat) part, es[k]? = some part → At root program env ((i + k) :: p) part) :
    (inference root program).Walks w w (Walked root program env) p i es es env :=
  .of_same fun k part hk _ _ _ hx =>
    .of_self (·.2) ((hw.typeOf ((he k part hk).extend hx)).weaken fun _ h => ⟨trivial, h.of_extends hx⟩)

/-- A call is refused while its function has no return type, so one that is not states it or has been settled. -/
theorem callRule {callee : Text} {args : List Expr} (hat : At root program env p (.call loc callee args)) :
    (inference root program).Holds (bindingsOf args) (callRule w p loc callee args) (callRule w p loc callee args)
      env env fun _ => CallsGrounded root program p (.call loc callee args) := by
  refine .assuming fun ⟨⟨hl, hinf⟩, _⟩ => ?_
  have hargs : (inference root program).Walks w w (Walked root program env) p 0 args args env := by
    refine walks hw fun k arg hk => ?_
    rw [Nat.zero_add]
    exact hat.part rfl hk
  refine (Holds.callRule rfl callee ?_ hargs (fun _ hr _ => callee_alone hr) ?_).weaken ?_
  · exact List.forall₂_same.2 fun arg _ => .refl (fun _ => rfl) arg
  · intro i hi _ env₁ _ hx
    obtain ⟨-, -, c, -, -, hc, -⟩ := hl.closure_of_lookupFun? hi
    obtain ⟨progress, hc₁⟩ := hx.closures i c hc
    exact .of_self (·.2) (hw.checkClosure ((hx.lookupFun?_eq callee).trans hi) hc₁).ended
  · rintro _ ⟨-, hwalked, i, hi, hreturn⟩
    refine .of_parts (fun _ _ _ heq site hresolves hunstated => ?_) fun k arg hk => (hwalked k arg hk).calls
    cases heq
    obtain ⟨c, hc, rfl⟩ := hat.sees callee i site hi hresolves
    rw [closure_eq hc] at hreturn
    exact hinf.grounded_of_returnOf hc hreturn hunstated

theorem declarationRule (id : Text) :
    (inference root program).Holds [] (declarationRule w id) (declarationRule w id) env env
      fun _ => Walked root program env p (.funDecl loc id) := by
  refine .assuming fun ⟨⟨hl, _⟩, _⟩ => ?_
  have hcheck : ∀ i, env.lookupFun? id = some i → (inference root program).Holds []
      (w.checkClosure .declaration i) (w.checkClosure .declaration i) env env
      fun _ => ∀ c, env.closures[i]? = some c → CallsGrounded root program c.site c.function.body := by
    intro i hi
    obtain ⟨-, -, c, -, -, hc, -⟩ := hl.closure_of_lookupFun? hi
    refine (hw.checkClosure hi hc).weaken fun _ hcalls c' hc' => ?_
    cases hc.symm.trans hc'
    exact hcalls
  refine (Holds.declarationRule id hcheck).weaken fun _ h => ⟨.of_parts (by simp) .nil, fun _ _ i c heq hi hc => ?_⟩
  cases heq
  exact h.2 i hi c hc

theorem blockRule {functions : List Function} {statements : List Expr} (hwf : program.WellFormed)
    (hat : At root program env p (.block loc functions statements)) :
    (inference root program).Holds [] (blockRule w p functions statements) (blockRule w p functions statements) env env
      fun _ => CallsGrounded root program p (.block loc functions statements) := by
  cases hreg : registerAll p 0 functions env.enter with
  | error fault env₁ =>
    refine holds_alone_iff.2 fun _ => ?_
    rw [blockRule_apply, hreg]
    trivial
  | ok _ env₁ =>
    obtain ⟨env₂, funs, h, hrun⟩ := blockRule_registered hreg
    refine .assuming fun ⟨⟨hl, hinf⟩, _⟩ => ?_
    have hparts : ∀ (k : Nat) e, statements[k]? = some e → At root program env₂ ((functions.length + k) :: p) e := by
      intro k e hk
      refine ⟨part_mem_nodes hat.node (children_of_statements hk), ?_⟩
      rw [h.frames]
      exact hat.sees.inBlock h hat.node
    have hstatements : (inference root program).Holds (bindingsOf statements)
        (typeStatements w p functions.length .unit statements) (typeStatements w p functions.length .unit statements)
        env₂ env₂ fun _ => CallsGrounded root program p (.block loc functions statements) :=
      (Holds.typeStatements rfl trivial (walks hw hparts)).weaken fun _ hs => h.callsGrounded hwf hat.node hs.2
    refine .within (hrun w statements) (hrun w statements) (fun _ => ?_) hstatements
    refine within_alone ⟨h.linked hl, hinf.registered h hat⟩ (fun {_ env₃} hx hi₃ => ?_) fun _ => trivial
    have hleave : env₃.leave = { env₃ with frames := env.frames } := by
      rw [Env.leave, Frame.tail_eq_of_outline_eq hx.frames, h.frames]
      rfl
    have hback : Extends env env₃.leave := hleave ▸ (h.grows.trans hx.toGrows).restore
    exact ⟨hback, hl.extend hback, hi₃.2.with_frames _⟩

theorem rule (hwf : program.WellFormed) (hat : At root program env p e) :
    (inference root program).Holds e.bindings (rule w p e) (rule w p e) env env
      fun _ => Walked root program env p e := by
  cases hscope : e.changesScope with
  | false =>
    obtain ⟨hfunctions, hdeclaration, hcall⟩ :
        e.functions = [] ∧ e.isDeclaration = false ∧ ∀ loc name args, e ≠ .call loc name args := by
      cases e <;> simp_all [changesScope, functions, isDeclaration]
    have hat' : At root program (bif e.opensFrame then env.enter else env) p e := by
      cases e.opensFrame with
      | false => exact hat
      | true => exact hat.enter
    refine (Holds.rule (.refl (fun _ => rfl) e) hscope (fun _ _ _ => trivial) ?_ (walks hw fun k part hk => ?_)).weaken
      fun _ hparts => .of_not_declaration (.of_parts ?_ fun k part hk => (hparts.2 k part hk).calls) hdeclaration
    · exact fun _ _ _ => .of_not_declaration (.of_parts (by simp) .nil) rfl
    · rw [Nat.zero_add]
      exact hat'.part hfunctions hk
    · exact fun _ _ _ heq => absurd heq (hcall _ _ _)
  | true =>
    cases e with
    | letIn loc id value =>
      refine (Holds.letRule rfl trivial (fun _ _ _ _ => bindVar _ _) (walks hw fun k part hk => ?_)).weaken
        fun _ hvalue => .of_not_declaration (.of_parts (by simp) fun k part hk => (hvalue.2 k part hk).calls) rfl
      rw [Nat.zero_add]
      exact hat.part rfl hk
    | block loc functions statements => exact (blockRule hw hwf hat).weaken fun _ h => .of_not_declaration h rfl
    | call loc callee args => exact (callRule hw hat).weaken fun _ h => .of_not_declaration h rfl
    | funDecl loc id => exact declarationRule hw id
    | _ => cases hscope

end
end Ensures

/-! ## Checks -/

section
variable {root p : Path} {program e : Expr} {env env' : Env}

theorem walker_ensures (hwf : program.WellFormed) (limit : Nat) : (walker limit).Ensures root program := by
  induction limit with
  | zero => exact ⟨fun _ => .stop _, fun _ _ => .stop _⟩
  | succ limit ih => exact ⟨fun hat => (Ensures.rule ih hwf hat).noted, fun hi hc => Ensures.bodyRule ih _ hi hc⟩

/-- After a check of the whole program that does not fail, every call means a grounded function or one that states its
return type. -/
theorem callsGrounded_of_check {ty : Ty} (hwf : program.WellFormed) (h : check root program {} = .ok ty env) :
    CallsGrounded root program root program := by
  have hat : At root program {} root program := ⟨self_mem_nodes root program, .nil⟩
  have hinferred : Inferred root program {} := ⟨by simp, by simp, by simp⟩
  have hcheck : (inference root program).Holds program.bindings (check root program) (check root program) {} {}
      fun _ => Walked root program {} root program :=
    (walker_ensures hwf (nestingLimit {} program.nodeCount)).typeOf hat
  have hrun := Comparison.holds_alone_iff.1 hcheck ⟨linked_empty, hinferred⟩
  rw [h] at hrun
  exact hrun.2.1.calls

theorem CallsGrounded.wellFounded (h : CallsGrounded root program root program) :
    WellFounded fun callee caller => Infers root program caller callee := by
  refine ⟨fun site => Acc.intro site fun callee hinfers => ?_⟩
  obtain ⟨f, q, loc, name, args, hf, hcall, hresolves⟩ := hinfers.calls
  exact h q loc name args callee (nodes_trans hf.body_mem_nodes hcall) hresolves hinfers.callee_unstated

/-- There is no cycle of functions without return types in a program that checks, each of which calls the next one,
whatever calls and declarations have them checked in which order; a program with such a cycle is refused. -/
theorem readProgram_inference_wellFounded {tokens : TokenStream} (hread : readProgram tokens = .ok program) :
    (∀ ty, (checkProgram program).1 = .ok ty →
      WellFounded (fun callee caller => Infers programRoot program caller callee) ∧
        ∀ site, ¬ Relation.TransGen (Infers programRoot program) site site) ∧
    ∀ site, Relation.TransGen (Infers programRoot program) site site →
      ∃ fault, (checkProgram program).1 = .error fault ∧ fault.IsTyping := by
  have hprogram : program.IsProgram := by
    have hyields := readProgram_yields tokens
    rwa [hread] at hyields
  have hacyclic : ∀ ty, (checkProgram program).1 = .ok ty →
      WellFounded (fun callee caller => Infers programRoot program caller callee) ∧
        ∀ site, ¬ Relation.TransGen (Infers programRoot program) site site := by
    intro ty h
    unfold checkProgram at h
    cases hcheck : check programRoot program {} with
    | error fault env =>
      rw [hcheck] at h
      cases h
    | ok ty' env =>
      have hwf := (callsGrounded_of_check hprogram.1 hcheck).wellFounded
      exact ⟨hwf, fun site hcycle => hwf.transGen.irrefl.irrefl site (Relation.transGen_swap.2 hcycle)⟩
  refine ⟨hacyclic, fun site hcycle => ?_⟩
  cases h : (checkProgram program).1 with
  | ok ty => exact absurd hcycle ((hacyclic ty h).2 site)
  | error fault => exact ⟨fault, rfl, checkProgram_error hprogram h⟩

end

/-- A function with a function in it that calls it. -/
def mutualProgram : Expr :=
  let h : Function := ⟨⟨"h", ⟨"a", 1, 10⟩, [], .any⟩, .call ⟨"a", 1, 18⟩ "f" []⟩
  let body : Expr := .block ⟨"a", 1, 9⟩ [h] [declarationOf h.signature, .call ⟨"a", 1, 22⟩ "h" []]
  let f : Function := ⟨⟨"f", ⟨"a", 1, 1⟩, [], .any⟩, body⟩
  .block ⟨"a", 1, 1⟩ [f] [declarationOf f.signature]

theorem readProgram_mutual :
    readProgram (.ofSources [⟨"fun f()={fun h()=f();h()}", "a"⟩]) = .ok mutualProgram := by
  with_unfolding_all rfl

theorem mutualProgram_refused : Relation.TransGen (Infers programRoot mutualProgram) [0, 0] [0, 0] ∧
    ∃ fault, (checkProgram mutualProgram).1 = .error fault ∧ fault.IsTyping := by
  have hcycle : Relation.TransGen (Infers programRoot mutualProgram) [0, 0] [0, 0] := by
    have hroot := self_mem_nodes programRoot mutualProgram
    have hbody := part_mem_nodes hroot (k := 0) rfl
    have hf : Places programRoot mutualProgram [0, 0] _ := ⟨0, _, _, _, _, rfl, hroot, rfl⟩
    have hh : Places programRoot mutualProgram [0, 0, 0] _ := ⟨0, _, _, _, _, rfl, hbody, rfl⟩
    have hfh : Infers programRoot mutualProgram [0, 0] [0, 0, 0] := by
      refine ⟨⟨_, hf, rfl⟩, ⟨_, hh, rfl⟩, _, [2, 0, 0], _, _, _, hf, part_mem_nodes (self_mem_nodes _ _) rfl, ?_⟩
      exact .here hbody (j := 0) rfl rfl
    have hhf : Infers programRoot mutualProgram [0, 0, 0] [0, 0] := by
      refine ⟨⟨_, hh, rfl⟩, ⟨_, hf, rfl⟩, _, [0, 0, 0], _, _, _, hh, self_mem_nodes _ _, ?_⟩
      exact .outer hbody (by simp [functions]) (.here hroot (j := 0) rfl rfl)
    exact .tail (.single hfh) hhf
  exact ⟨hcycle, (readProgram_inference_wellFounded readProgram_mutual).2 [0, 0] hcycle⟩

end FrontEnd.Typing
