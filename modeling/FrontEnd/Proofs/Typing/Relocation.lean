import FrontEnd.Proofs.Session
import FrontEnd.Proofs.Syntax.Relocation
import FrontEnd.Proofs.Typing.Comparison

/-!
# Checking trees at other places

Checking does not look at places either. Trees that are alike have the same type in environments that are alike, with
the same notes, or are at fault for the same reason, at nodes that belong together.

* `Closure.Alike`, `Env.Alike` : environments whose closures are of functions that are alike; the operations on
  environments keep this;
* `agreement` : the comparison of steps of checking in environments that are alike;
* `Walker.Agree` : two ways to go on with a check that agree, `Agree.rule`, `Agree.bodyRule` : the rules keep this;
* `check_sameOutcome` : checks of trees that are alike come to the same;
* `TokenStream.SamePlace`, `readProgram_check_samePlace` : so the places of tokens have no influence on what a program
  means.
-/

namespace FrontEnd
variable {R S : Location → Location → Prop}

/-! ## Environments -/

/-- A closure of the same function, at other places. -/
structure Closure.Alike (R : Location → Location → Prop) (c c' : Closure) : Prop where
  function : c.function.Alike R c'.function
  site : c.site = c'.site
  progress : c.progress = c'.progress
  captured : c.captured = c'.captured
  scope : c.scope = c'.scope

/-- The same environment but for the places in the functions of closures. -/
structure Env.Alike (R : Location → Location → Prop) (env env' : Env) : Prop where
  frames : env.frames = env'.frames
  closures : ∀ i : Nat, Option.Rel (Closure.Alike R) env.closures[i]? env'.closures[i]?
  nextScope : env.nextScope = env'.nextScope
  notes : env.notes = env'.notes

theorem Closure.Alike.withSiblings {c c' : Closure} (h : c.Alike R c') (funs : Dictionary Nat) :
    (c.withSiblings funs).Alike R (c'.withSiblings funs) :=
  ⟨h.function, h.site, h.progress, congrArg (List.modifyHead _) h.captured, h.scope⟩

theorem Closure.Alike.setProgress {c c' : Closure} (h : c.Alike R c') (progress : Progress) :
    Closure.Alike R { c with progress } { c' with progress } :=
  ⟨h.function, h.site, rfl, h.captured, h.scope⟩

namespace Env.Alike
variable {env env' : Env}

theorem refl_empty (notes : Notes) : Env.Alike R { notes } { notes } :=
  ⟨rfl, fun _ => .none, rfl, rfl⟩

/-! ### Look-ups -/

theorem closure (h : env.Alike R env') {i : Nat} {c : Closure} (hc : env.closures[i]? = some c) :
    ∃ c', env'.closures[i]? = some c' ∧ c.Alike R c' := by
  have hi := h.closures i
  rw [hc] at hi
  generalize env'.closures[i]? = o at hi ⊢
  cases hi with
  | some halike => exact ⟨_, rfl, halike⟩

theorem size (h : env.Alike R env') : env.closures.size = env'.closures.size := by
  have hnone : ∀ i : Nat, env.closures[i]? = none ↔ env'.closures[i]? = none := by
    intro i
    have hi := h.closures i
    generalize env.closures[i]? = o at hi ⊢
    generalize env'.closures[i]? = o' at hi ⊢
    cases hi <;> simp
  have hle := (hnone env.closures.size).1 (Array.getElem?_eq_none (Nat.le_refl _))
  have hge := (hnone env'.closures.size).2 (Array.getElem?_eq_none (Nat.le_refl _))
  rw [Array.getElem?_eq_none_iff] at hle hge
  omega

theorem hasVar_eq (h : env.Alike R env') (id : Text) : env.hasVar id = env'.hasVar id := by
  rw [hasVar, h.frames, hasVar]

theorem hasFun_eq (h : env.Alike R env') (id : Text) : env.hasFun id = env'.hasFun id := by
  rw [hasFun, h.frames, hasFun]

theorem lookupVar?_eq (h : env.Alike R env') (id : Text) : env.lookupVar? id = env'.lookupVar? id := by
  rw [lookupVar?, h.frames, lookupVar?]

theorem lookupFun?_eq (h : env.Alike R env') (id : Text) : env.lookupFun? id = env'.lookupFun? id := by
  rw [lookupFun?, h.frames, lookupFun?]

theorem declaringFrames?_eq (h : env.Alike R env') (scope : Nat) :
    env.declaringFrames? scope = env'.declaringFrames? scope := by
  rw [declaringFrames?, h.frames, declaringFrames?]

theorem returnOf_eq (h : env.Alike R env') {c c' : Closure} (hc : c.Alike R c') :
    env.returnOf c = env'.returnOf c' := by
  rw [returnOf, returnOf, Notes.returnOf, Notes.returnOf, h.notes, hc.site, hc.function.signature.ret]

/-! ### Operations -/

theorem with_frames (h : env.Alike R env') (frames : List Frame) :
    Env.Alike R { env with frames } { env' with frames } :=
  ⟨rfl, h.closures, h.nextScope, h.notes⟩

theorem enter (h : env.Alike R env') : env.enter.Alike R env'.enter := by
  refine ⟨?_, h.closures, congrArg (· + 1) h.nextScope, h.notes⟩
  show { id := env.nextScope } :: env.frames = { id := env'.nextScope } :: env'.frames
  rw [h.nextScope, h.frames]

theorem leave (h : env.Alike R env') : env.leave.Alike R env'.leave :=
  ⟨congrArg List.tail h.frames, h.closures, h.nextScope, h.notes⟩

theorem setProgress (h : env.Alike R env') (i : Nat) (progress : Progress) :
    (env.setProgress i progress).Alike R (env'.setProgress i progress) := by
  refine ⟨h.frames, fun j => ?_, h.nextScope, h.notes⟩
  rw [getElem?_setProgress, getElem?_setProgress]
  split
  · have hj := h.closures j
    generalize env.closures[j]? = o at hj ⊢
    generalize env'.closures[j]? = o' at hj ⊢
    cases hj with
    | none => exact .none
    | some halike => exact .some (halike.setProgress progress)
  · exact h.closures j

theorem setNotes (h : env.Alike R env') (change : Notes → Notes) :
    Env.Alike R { env with notes := change env.notes } { env' with notes := change env'.notes } :=
  ⟨h.frames, h.closures, h.nextScope, congrArg change h.notes⟩

theorem bindVar? (h : env.Alike R env') (id : Text) (t : Ty) :
    Option.Rel (Env.Alike R) (env.bindVar? id t) (env'.bindVar? id t) := by
  unfold Env.bindVar? modifyInnermost?
  rw [← h.frames]
  split
  · exact .none
  · exact .some (h.with_frames _)

theorem register? (h : env.Alike R env') (id : Text) {f f' : Function} (hf : f.Alike R f') (site : Path) :
    Option.Rel (Env.Alike R) (env.register? id f site) (env'.register? id f' site) := by
  unfold Env.register?
  rw [← h.frames, ← h.size]
  split
  · exact .none
  · refine .some ⟨rfl, fun i => ?_, h.nextScope, h.notes⟩
    rw [Array.getElem?_push, Array.getElem?_push, ← h.size]
    split
    · exact .some ⟨hf, rfl, rfl, rfl, rfl⟩
    · exact h.closures i

theorem linkSiblings? (h : env.Alike R env') : Option.Rel (Env.Alike R) env.linkSiblings? env'.linkSiblings? := by
  cases hf : env.frames with
  | nil =>
    rw [Env.linkSiblings?, Env.linkSiblings?, ← h.frames, hf]
    exact .none
  | cons f fs =>
    obtain ⟨store, hlink, -, hstore⟩ := linkSiblings?_eq hf
    obtain ⟨store', hlink', -, hstore'⟩ := linkSiblings?_eq (h.frames ▸ hf)
    rw [hlink, hlink']
    refine .some ⟨h.frames, fun i => ?_, h.nextScope, h.notes⟩
    rw [hstore, hstore']
    split
    · have hi := h.closures i
      generalize env.closures[i]? = o at hi ⊢
      generalize env'.closures[i]? = o' at hi ⊢
      cases hi with
      | none => exact .none
      | some halike => exact .some (halike.withSiblings f.funs)
    · exact h.closures i

end Env.Alike

namespace Typing
open Check Env

/-! ## Steps -/

/-- Two outcomes of checking: the same value, or faults that are alike, in environments that are alike. -/
def SameOutcome {α : Type} (R : Location → Location → Prop) :
    EStateM.Result Fault Env α → EStateM.Result Fault Env α → Prop
  | .ok a env, .ok a' env' => a = a' ∧ env.Alike R env'
  | .error fault env, .error fault' env' => fault.Alike R fault' ∧ env.Alike R env'
  | _, _ => False

/-- Two runs in sound environments that are alike, on trees that are. Closures stay where they are. -/
def agreement (R : Location → Location → Prop) : Comparison where
  related env env' := env.Sound ∧ env.Alike R env'
  moves _ := Keeps
  awaited _ _ := True
  faults fault fault' env env' := fault.Alike R fault' ∧ env.Alike R env'
  places := R

instance : (agreement R).Lawful where
  refl := Keeps.refl
  trans := Keeps.trans
  breaks_refl _ := trivial
  breaks_append _ _ := trivial
  breaks_after _ _ := trivial
  foretold_of_moves _ _ := trivial
  foretold_of_breaks _ _ := trivial
  refused hr _ hloc := ⟨.typing hloc, hr.2⟩
  stopped hr _ := ⟨.internal, hr.2⟩
  note p t hr :=
    ⟨⟨⟨hr.1.frames, hr.1.captured⟩, hr.2.setNotes (·.setType p t)⟩, fun _ c hc => ⟨c, hc, rfl⟩, Nat.le_refl _⟩
  enter hr := {
    related := ⟨hr.1.enter, hr.2.enter⟩
    moves := fun hk hr₁ => ⟨⟨hk.closures, Nat.le_trans (Nat.le_succ _) hk.nextScope⟩, hr₁.1.leave, hr₁.2.leave⟩
    breaks := fun _ => trivial
    foretold := fun _ => trivial
    awaited := fun _ => trivial
    faults := fun hfaults => ⟨hfaults.1, hfaults.2.leave⟩ }
  lookupVar? hr _ _ := (hr.2.lookupVar?_eq _).symm
  hasVar hr _ _ := (hr.2.hasVar_eq _).symm
  lookupFun? id hr _ := (hr.2.lookupFun?_eq id).symm.trans Option.map_id'.symm
  typed_of_ne_any _ := trivial
  typed_of_lookupVar? _ _ := trivial

/-- Ways to go on with a check that agree on trees that are alike and on the bodies of closures. -/
structure Walker.Agree (R : Location → Location → Prop) (v w : Walker) : Prop where
  typeOf : ∀ p e e' env env', e.Alike R e' →
    (agreement R).Holds e.bindings (v.typeOf p e) (w.typeOf p e') env env' fun _ => True
  checkClosure : ∀ occasion i env env', (∃ c, env.closures[i]? = some c) →
    (agreement R).Holds [] (v.checkClosure occasion i) (w.checkClosure occasion i) env env' fun _ => True

namespace Agree
open Comparison
variable {α : Type} {names : List Text} {env env' : Env}

theorem sameOutcome {x y : Check α} {post : α → Prop} (h : (agreement R).Holds names x y env env' post)
    (hs : env.Sound) (he : env.Alike R env') : SameOutcome R (x env) (y env') := by
  have h := h ⟨hs, he⟩
  cases hrun : x env with
  | ok a env₁ =>
    rw [hrun] at h
    obtain ⟨-, -, env₁', hr₁, hy⟩ := h
    rw [hy trivial]
    exact ⟨rfl, hr₁.2⟩
  | error fault env₁ =>
    rw [hrun] at h
    obtain ⟨fault', env₁', hy, hfaults⟩ := h.2 trivial
    rw [hy]
    exact hfaults

theorem changeOr {cause : InternalError} {f g : Env → Option Env}
    (hs : env.Sound → ∀ env₁, f env = some env₁ → env₁.Sound ∧ Keeps env env₁)
    (he : env.Alike R env' → Option.Rel (Env.Alike R) (f env) (g env')) :
    (agreement R).Holds names (Check.changeOr cause f) (Check.changeOr cause g) env env' fun _ => True := by
  refine Holds.changeOr (fun hr hf _ => ?_) fun env₁ hr hf => ?_
  · have hrel := he hr.2
    rw [hf] at hrel
    generalize g env' = o at hrel ⊢
    cases hrel
    rfl
  · have hrel := he hr.2
    obtain ⟨hs₁, hk⟩ := hs hr.1 env₁ hf
    rw [hf] at hrel
    generalize g env' = o at hrel ⊢
    cases hrel with
    | some he₁ => exact ⟨hk, _, ⟨hs₁, he₁⟩, fun _ => rfl⟩

theorem setProgress (i : Nat) (progress : Progress) :
    (agreement R).Holds [] (Check.setProgress i progress) (Check.setProgress i progress) env env' fun _ => True :=
  .change fun ⟨hs, he⟩ =>
    ⟨⟨(hs.setProgress i progress).1, he.setProgress i progress⟩, (hs.setProgress i progress).2⟩

theorem bindVar (id : Text) (t : Ty) :
    (agreement R).Holds [id] (Check.bindVar id t) (Check.bindVar id t) env env' fun _ => True :=
  changeOr (fun hs _ hb => hs.bindVar? hb) fun he => he.bindVar? id t

theorem register (id : Text) {f f' : Function} (hf : f.Alike R f') (site : Path) :
    (agreement R).Holds [] (Check.register id f site) (Check.register id f' site) env env' fun _ => True :=
  changeOr (fun hs _ hr => hs.register? hr) fun he => he.register? id hf site

theorem linkSiblings :
    (agreement R).Holds [] Check.linkSiblings Check.linkSiblings env env' fun _ => True :=
  changeOr (fun hs _ hl => hs.linkSiblings? hl) fun he => he.linkSiblings?

theorem inFrames {x y : Check α} {frames : List Frame} {post : α → Prop}
    (hw : WellLinked env.closures env.nextScope frames)
    (h : (agreement R).Holds names x y { env with frames } { env' with frames } post) :
    (agreement R).Holds [] (Check.inFrames frames x) (Check.inFrames frames y) env env' post := by
  refine Holds.inFrames (fun ⟨hs, he⟩ => ?_) h
  refine ⟨⟨hs.with_frames hw, he.with_frames frames⟩, fun {_ env₁ env₁'} hk hr₁ => ?_, fun _ => trivial,
    fun _ => trivial, fun _ => trivial, fun {_ _ env₁ env₁'} hfaults => ?_⟩
  · rw [← he.frames]
    exact ⟨⟨hk.closures, hk.nextScope⟩, hr₁.1.with_frames (hs.frames.mono hk.closures hk.nextScope),
      hr₁.2.with_frames env.frames⟩
  · rw [← he.frames]
    exact ⟨hfaults.1, hfaults.2.with_frames env.frames⟩

theorem callee {id : Text} {i : Nat} (hr : (agreement R).related env env') (hi : env.lookupFun? id = some i) :
    (agreement R).Callee env env' i := by
  obtain ⟨hs, he⟩ := hr
  obtain ⟨c, hc⟩ := hs.exists_closure hi
  obtain ⟨c', hc', halike⟩ := he.closure hc
  have hreturn : ∀ {env₁ env₁' : Env}, env₁.Alike R env₁' →
      env₁'.returnOf (env'.closure i) = env₁.returnOf (env.closure i) := by
    intro env₁ env₁' he₁
    rw [closure_eq hc, closure_eq hc', he₁.returnOf_eq halike]
  refine ⟨fun _ => ?_, fun _ hany => (hreturn he).trans hany, fun _ _ _ _ _ hr₁ => ⟨trivial, fun _ => hreturn hr₁.2⟩,
    fun {_ env₁ env₁'} hk hr₁ _ => ?_⟩
  · show (env'.closure i).function.signature.params = _
    rw [closure_eq hc, closure_eq hc']
    exact halike.function.signature.params.symm
  · obtain ⟨c₁, hc₁⟩ := hk.holds ⟨c, hc⟩
    obtain ⟨c₁', hc₁', halike₁⟩ := hr₁.2.closure hc₁
    show (env₁'.closure i).progress = _
    rw [closure_eq hc₁, closure_eq hc₁']
    exact halike₁.progress.symm

/-! ## Rules -/

theorem settleReturn (site : Path) {f f' : Function} (hf : f.Alike R f') (t : Ty) :
    (agreement R).Holds [] (settleReturn site f t) (settleReturn site f' t) env env' fun _ => True := by
  refine .settleReturn hf.signature.loc (fun ⟨_, he⟩ => ?_) (fun _ ⟨hs, he⟩ => ?_) trivial
  · rw [Notes.returnOf, Notes.returnOf, he.notes, hf.signature.ret]
  · exact ⟨⟨⟨hs.frames, hs.captured⟩, he.setNotes (·.setReturn site t)⟩, fun _ c hc => ⟨c, hc, rfl⟩, Nat.le_refl _⟩

section
variable {v w : Walker} (hw : Walker.Agree R v w) {p : Path} {loc loc' : Location}
include hw

theorem checkFunction (site : Path) {f f' : Function} (hf : f.Alike R f') :
    (agreement R).Holds [] (checkFunction v site f) (checkFunction w site f') env env' fun _ => True := by
  refine Holds.checkFunction ?_ (fun _ => hw.typeOf site _ _ _ _ hf.body) fun t _ _ _ _ => settleReturn site hf t
  rw [← hf.signature.params]
  exact .bindParameters hf.signature.loc (fun _ _ => trivial) fun _ _ _ _ => bindVar _ _

theorem bodyRule (occasion : Occasion) (i : Nat) (hi : ∃ c, env.closures[i]? = some c) :
    (agreement R).Holds [] (bodyRule v occasion i) (bodyRule w occasion i) env env' fun _ => True := by
  refine (setProgress i .checking).bind fun _ env₁ env₁' hk _ => .get (.assuming fun ⟨hs, he⟩ => ?_)
  obtain ⟨c, hc⟩ := hk.holds hi
  obtain ⟨c', hc', halike⟩ := he.closure hc
  rw [closure_eq hc, closure_eq hc']
  have hbody : ∀ frames, WellLinked env₁.closures env₁.nextScope frames → (agreement R).Holds []
      (Check.inFrames frames (Typing.checkFunction v c.site c.function) >>= fun _ => Check.setProgress i .checked)
      (Check.inFrames frames (Typing.checkFunction w c'.site c'.function) >>= fun _ => Check.setProgress i .checked)
      env₁ env₁' fun _ => True := by
    intro frames hframes
    rw [← halike.site]
    exact (inFrames hframes (checkFunction hw c.site halike.function)).bind fun _ _ _ _ _ => setProgress i .checked
  cases occasion with
  | call =>
    show (agreement R).Holds [] (declaringFrames c.scope >>= _) (declaringFrames c'.scope >>= _) env₁ env₁' _
    rw [← halike.scope]
    refine .find id (declaringFrames_apply c.scope) (declaringFrames_apply c.scope) (fun _ _ => ?_)
      fun frames hframes => hbody frames (hs.declaringFrames? hframes)
    exact (he.declaringFrames?_eq c.scope).symm.trans Option.map_id'.symm
  | declaration =>
    show (agreement R).Holds [] (Check.inFrames c.captured _ >>= _) (Check.inFrames c'.captured _ >>= _) env₁ env₁' _
    rw [← halike.captured]
    exact hbody c.captured (hs.captured i c hc).1

theorem walks {es es' : List Expr} (hes : List.Forall₂ (Expr.Alike R) es es') (i : Nat) (env : Env) :
    (agreement R).Walks v w (fun _ _ => True) p i es es' env := by
  intro k part part' hk hk' _ env₁ env₁' _
  obtain ⟨_, hk₁, hpart⟩ := getElem?_of_forall₂ hes hk
  obtain rfl := Option.some.inj (hk'.symm.trans hk₁)
  exact (hw.typeOf _ _ _ _ _ hpart).weaken fun _ _ => ⟨trivial, trivial⟩

theorem rule {e e' : Expr} (he : e.Alike R e') :
    (agreement R).Holds e.bindings (rule v p e) (rule w p e') env env' fun _ => True := by
  cases hscope : e.changesScope with
  | false =>
    refine (Holds.rule he hscope ?_ ?_ (walks hw he.children _ _)).ended
    · exact fun _ _ _ => trivial
    · exact fun _ _ _ => trivial
  | true =>
    cases he with
    | letIn hloc h =>
      exact (Holds.letRule hloc trivial (fun _ _ _ _ => bindVar _ _) (walks hw (.cons h .nil) 0 env)).ended
    | block hloc hf hs =>
      refine (Holds.blockRule hf.length_eq hs.length_eq ?_ linkSiblings fun {_ env₁} _ => walks hw hs _ env₁).ended
      exact .registerAll hf (fun id hr _ => (hr.2.hasFun_eq id).symm) fun k f f' _ _ hf => register _ hf _
    | call hloc hargs =>
      refine .assuming fun ⟨hs, _⟩ => (Holds.callRule hloc _ hargs (walks hw hargs 0 env) (fun _ => callee) ?_).ended
      exact fun i hi _ env₁ _ hk => hw.checkClosure .call i _ _ (hk.holds (hs.exists_closure hi))
    | funDecl =>
      exact .assuming fun ⟨hs, _⟩ =>
        (Holds.declarationRule _ fun i hi => hw.checkClosure .declaration i _ _ (hs.exists_closure hi)).ended
    | _ => cases hscope

end
end Agree

/-! ## Checks -/

theorem walker_agree (limit : Nat) : Walker.Agree R (walker limit) (walker limit) := by
  induction limit with
  | zero => exact ⟨fun _ _ _ _ _ _ => .stop _, fun _ _ _ _ _ => .stop _⟩
  | succ limit ih =>
    exact ⟨fun p e e' env env' he => (Agree.rule ih he).noted,
      fun occasion i env env' hi => Agree.bodyRule ih occasion i hi⟩

theorem nestingLimit_eq {env env' : Env} (h : env.Alike R env') (nodes : Nat) :
    nestingLimit env nodes = nestingLimit env' nodes := by
  have hfold : ∀ {cs cs' : List Closure} (n : Nat), List.Forall₂ (Closure.Alike R) cs cs' →
      cs.foldl (fun n c => n + c.function.body.nodeCount) n =
        cs'.foldl (fun n c => n + c.function.body.nodeCount) n := by
    intro cs cs' n hcs
    induction hcs generalizing n with
    | nil => rfl
    | cons hc _ ih => rw [List.foldl_cons, List.foldl_cons, hc.function.body.nodeCount, ih]
  have hclosures : List.Forall₂ (Closure.Alike R) env.closures.toList env'.closures.toList := by
    refine forall₂_of_getElem? h.size fun k c c' hc hc' => ?_
    rw [Array.getElem?_toList] at hc hc'
    obtain ⟨c₁, hc₁, halike⟩ := h.closure hc
    rwa [Option.some.inj (hc₁.symm.trans hc')] at halike
  unfold nestingLimit
  rw [← Array.foldl_toList, ← Array.foldl_toList, hfold nodes hclosures]

/-- Checks of trees that are alike have the same outcome, in environments that are alike. -/
theorem check_sameOutcome {e e' : Expr} {env env' : Env} (he : e.Alike R e') (p : Path) (hs : env.Sound)
    (henv : env.Alike R env') : SameOutcome R (check p e env) (check p e' env') := by
  have hagree := (walker_agree (nestingLimit env e.nodeCount)).typeOf p e e' env env' he
  have houtcome := Agree.sameOutcome hagree hs henv
  rw [check, get_bind_apply, check, get_bind_apply, ← he.nodeCount, ← nestingLimit_eq henv]
  exact houtcome

end Typing

/-! ## Programs -/

theorem Function.Alike.mono {f f' : Function} (h : f.Alike R f') (hS : ∀ loc loc', R loc loc' → S loc loc') :
    f.Alike S f' :=
  .of ⟨h.signature.name, hS _ _ h.signature.loc, h.signature.params, h.signature.ret⟩
    (h.body.refine (p := []) fun loc loc' hR _ => hS loc loc' hR)

theorem Env.Alike.mono {env env' : Env} (h : env.Alike R env') (hS : ∀ loc loc', R loc loc' → S loc loc') :
    env.Alike S env' := by
  refine ⟨h.frames, fun i => ?_, h.nextScope, h.notes⟩
  have hi := h.closures i
  generalize env.closures[i]? = o at hi ⊢
  generalize env'.closures[i]? = o' at hi ⊢
  cases hi with
  | none => exact .none
  | some hc => exact .some ⟨hc.function.mono hS, hc.site, hc.progress, hc.captured, hc.scope⟩

/-- `loc` and `loc'` are the places of tokens with the same position in `s` and in `s'`. -/
def TokenStream.SamePlace (s s' : TokenStream) (loc loc' : Location) : Prop :=
  ∃ (k : Nat) (t t' : Token), s.toList[k]? = some t ∧ s'.toList[k]? = some t' ∧ loc = t.loc ∧ loc' = t'.loc

theorem TokenStream.alike_samePlace {s s' : TokenStream}
    (h : s.toList.map (fun t => (t.kind, t.text)) = s'.toList.map fun t => (t.kind, t.text)) :
    s.Alike (s.SamePlace s') s' := by
  have hlen : s.ahead.length = s'.ahead.length := by simpa [toList] using congrArg List.length h
  have htoken : ∀ (k : Nat) t t', s.toList[k]? = some t → s'.toList[k]? = some t' → t.Alike (s.SamePlace s') t' := by
    intro k t t' hk hk'
    have hsame := congrArg (·[k]?) h
    simp only [List.getElem?_map, hk, hk', Option.map_some, Option.some.injEq, Prod.mk.injEq] at hsame
    exact ⟨hsame.1, hsame.2, k, t, t', hk, hk', rfl, rfl⟩
  have hlast : ∀ s : TokenStream, s.toList[s.ahead.length]? = some s.last := fun s => by simp [toList]
  refine ⟨forall₂_of_getElem? hlen fun k t t' hk hk' => htoken k t t' ?_ ?_, ?_⟩
  · rw [toList, List.getElem?_append_left (List.getElem?_eq_some_iff.1 hk).1, hk]
  · rw [toList, List.getElem?_append_left (List.getElem?_eq_some_iff.1 hk').1, hk']
  · exact (htoken _ _ _ (hlast s) (hlen ▸ hlast s')).loc

open FrontEnd.Expr in
/-- The places of tokens have no influence on what a program means. Two streams of the same tokens at different places
hold trees that differ in nothing but the places, which belong to tokens with the same position, or they are refused for
the same reason at such tokens. The trees check alike, in a new environment or in any two that differ in places only:
with the same type, notes and return types, or with the same fault at nodes that belong together. -/
theorem readProgram_check_samePlace {s s' : TokenStream}
    (h : s.toList.map (fun t => (t.kind, t.text)) = s'.toList.map fun t => (t.kind, t.text)) :
    Yielded (s.SamePlace s') (fun e e' => e.Alike (s.SamePlace s') e' ∧
        ∀ (p : Path) (R : Location → Location → Prop) (env env' : Env), env.Sound → env.Alike R env' →
          Typing.SameOutcome (fun loc loc' => R loc loc' ∨ (Corresponds p e e' loc loc' ∧ s.SamePlace s' loc loc'))
            (Typing.check p e env) (Typing.check p e' env'))
      (readProgram s) (readProgram s') := by
  have hread := readProgram_alike (TokenStream.alike_samePlace h)
  cases hrun : readProgram s with
  | error fault =>
    rw [hrun] at hread
    generalize readProgram s' = r at hread ⊢
    cases r with
    | error fault' => exact hread
    | ok e' => exact False.elim hread
  | ok e =>
    rw [hrun] at hread
    generalize readProgram s' = r at hread ⊢
    cases r with
    | error fault' => exact False.elim hread
    | ok e' =>
      refine ⟨hread, fun p R env env' hs he => ?_⟩
      have halike : e.Alike (fun loc loc' => R loc loc' ∨ (Corresponds p e e' loc loc' ∧ s.SamePlace s' loc loc')) e' :=
        Expr.Alike.refine hread fun loc loc' hplace hcorresponds => .inr ⟨hcorresponds, hplace⟩
      exact Typing.check_sameOutcome halike p hs (he.mono fun _ _ hR => .inl hR)

/-- The tokens of a program that is a variable which nothing binds. -/
def unboundName (loc endLoc : Location) : TokenStream := ⟨[⟨.identifier, "x", loc⟩], endLoc⟩

theorem readProgram_unboundName (loc endLoc : Location) :
    readProgram (unboundName loc endLoc) = .ok (.block loc [] [.name loc "x"]) := by
  with_unfolding_all rfl

open FrontEnd.Expr in
theorem unboundName_check_samePlace : ∃ e e' fault fault' env env',
    readProgram (unboundName ⟨"a", 1, 1⟩ ⟨"a", 1, 2⟩) = .ok e ∧
    readProgram (unboundName ⟨"b", 7, 5⟩ ⟨"b", 9, 1⟩) = .ok e' ∧
    Typing.check programRoot e {} = .error fault env ∧ Typing.check programRoot e' {} = .error fault' env' ∧
    fault.Alike (Corresponds programRoot e e') fault' := by
  have hsame := @readProgram_check_samePlace (unboundName ⟨"a", 1, 1⟩ ⟨"a", 1, 2⟩)
    (unboundName ⟨"b", 7, 5⟩ ⟨"b", 9, 1⟩) rfl
  rw [readProgram_unboundName, readProgram_unboundName] at hsame
  have hsound : Env.Sound {} := ⟨.nil, by simp⟩
  have houtcome := hsame.2 programRoot (fun _ _ => False) {} {} hsound (.refl_empty {})
  have hrun : ∀ loc, ∃ env, Typing.check programRoot (.block loc [] [.name loc "x"]) {} =
      .error (.typing (.unknownVariable "x") loc) env := fun _ => ⟨_, rfl⟩
  obtain ⟨env, hrun₁⟩ := hrun ⟨"a", 1, 1⟩
  obtain ⟨env', hrun₂⟩ := hrun ⟨"b", 7, 5⟩
  refine ⟨_, _, _, _, env, env', readProgram_unboundName _ _, readProgram_unboundName _ _, hrun₁, hrun₂, ?_⟩
  rw [hrun₁, hrun₂] at houtcome
  cases houtcome.1 with
  | typing hloc => exact .typing (hloc.elim False.elim And.left)

end FrontEnd
