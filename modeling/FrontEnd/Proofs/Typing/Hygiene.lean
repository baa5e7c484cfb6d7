import FrontEnd.Proofs.Typing.Twins

/-!
# Checks do not see counting variables

A check of a hygienic tree does the same in environments that differ in counting variables. So does the check of any
tree when the open frames are the same, whatever the functions that it calls have captured.

* `twins` : the comparison of a run with one in a twin environment: if it comes to an end, so does the other one, and
  twins are left behind;
* `Walker.Follows` : a walker whose checks follow each other; `Follows.rule`, `Follows.bodyRule` : the rules keep this;
* `walker_follows` : so checks follow each other, by induction on their limits.
-/

namespace FrontEnd.Typing
open Check Env FrontEnd.Expr

/-! ## Steps -/

/-- A run, and another one in a twin of its environment. When the first one comes to an end, so does the second one with
the same value. Closures keep their functions, and the open frames theirs. -/
def twins (exact : Prop) : Comparison where
  related env env' := env.Sound ∧ env.Twin exact env'
  moves _ env env₁ := env.Retains env₁ ∧ Frame.outline env₁.frames = Frame.outline env.frames
  awaited _ _ := False
  faults _ _ _ _ := True
  sees id := exact ∨ id ≠ countingVariable

/-- Coming back to environments in which just the innermost frame was not open yet. -/
theorem twins_within {exact : Prop} {env env' inner inner' : Env} (hr : (twins exact).related inner inner')
    (hk : env.Retains inner) (hf : inner.frames.tail = env.frames) :
    (twins exact).Within (twins exact) env env' inner inner' (·.leave) (·.leave) where
  related := hr
  moves {_ env₁ _} hm hr₁ := by
    have hframes : env₁.leave.frames = env.frames := (Frame.tail_eq_of_outline_eq hm.2).trans hf
    exact ⟨⟨(hk.trans hm.1).leave, by rw [hframes]⟩, hr₁.1.leave, hr₁.2.leave⟩
  breaks _ := trivial
  foretold _ := trivial
  awaited := id
  faults _ := trivial

instance (exact : Prop) : (twins exact).Lawful where
  refl env := ⟨.refl env, rfl⟩
  trans h h' := ⟨h.1.trans h'.1, h'.2.trans h.2⟩
  breaks_refl _ := trivial
  breaks_append _ _ := trivial
  breaks_after _ _ := trivial
  foretold_of_moves _ _ := trivial
  foretold_of_breaks _ _ := trivial
  refused _ _ _ := trivial
  stopped _ _ := trivial
  note _ _ hr := ⟨⟨⟨hr.1.frames, hr.1.captured⟩, hr.2.with_notes hr.2.returns⟩,
    .of_closures_eq rfl (Nat.le_refl _), rfl⟩
  enter hr := twins_within ⟨hr.1.enter, hr.2.enter⟩ (.of_closures_eq rfl (Nat.le_succ _)) rfl
  lookupVar? hr _ hid := (hr.2.lookupVar?_eq hid).symm
  hasVar hr _ hid := (hr.2.hasVar_eq hid).symm
  lookupFun? id hr _ := (hr.2.lookupFun?_eq id).symm.trans Option.map_id'.symm
  typed_of_ne_any _ := trivial
  typed_of_lookupVar? _ _ := trivial

theorem twins_holds_iff {α : Type} {exact : Prop} {names : List Text} {x y : Check α} {env env' : Env} :
    (twins exact).Holds names x y env env' (fun _ => True) ↔ (env.Sound → env.Twin exact env' →
      ∀ a env₁, x env = .ok a env₁ → (env.Retains env₁ ∧ Frame.outline env₁.frames = Frame.outline env.frames) ∧
        ∃ env₁', y env' = .ok a env₁' ∧ env₁.Sound ∧ env₁.Twin exact env₁') := by
  constructor
  · intro h hs ht a env₁ hrun
    have h := h ⟨hs, ht⟩
    rw [hrun] at h
    obtain ⟨hm, -, env₁', hr₁, hrun'⟩ := h
    exact ⟨hm, env₁', hrun' trivial, hr₁⟩
  · rintro h ⟨hs, ht⟩
    cases hrun : x env with
    | error fault env₁ => exact ⟨trivial, False.elim⟩
    | ok a env₁ =>
      obtain ⟨hm, env₁', hrun', hr₁⟩ := h hs ht a env₁ hrun
      exact ⟨hm, trivial, env₁', hr₁, fun _ => hrun'⟩

/-- Checks of trees follow each other if the trees are hygienic or the open frames the same, and checks of bodies if the
function is one that is found. -/
structure Walker.Follows (w : Walker) : Prop where
  typeOf : ∀ {exact : Prop} {p e env env'}, exact ∨ e.Hygienic →
    (twins exact).Holds e.bindings (w.typeOf p e) (w.typeOf p e) env env' fun _ => True
  checkClosure : ∀ {exact : Prop} {occasion i env env'}, (∃ id, env.lookupFun? id = some i) →
    (twins exact).Holds [] (w.checkClosure occasion i) (w.checkClosure occasion i) env env' fun _ => True

theorem Walker.Follows.typeOf_of_ok {w : Walker} (hw : w.Follows) {exact : Prop} {p : Path} {e : Expr} {t : Ty}
    {env env' env₁ : Env} (he : exact ∨ e.Hygienic) (hs : env.Sound) (ht : env.Twin exact env')
    (hrun : w.typeOf p e env = .ok t env₁) :
    (env.Retains env₁ ∧ Frame.outline env₁.frames = Frame.outline env.frames) ∧
      ∃ env₁', w.typeOf p e env' = .ok t env₁' ∧ env₁.Sound ∧ env₁.Twin exact env₁' :=
  twins_holds_iff.1 (hw.typeOf he) hs ht t env₁ hrun

namespace Follows
open Comparison
variable {α : Type} {exact exact' : Prop} {names : List Text} {env env' : Env}

theorem setProgress (i : Nat) (progress : Progress) :
    (twins exact).Holds [] (Check.setProgress i progress) (Check.setProgress i progress) env env' fun _ => True :=
  .change fun hr => ⟨⟨(hr.1.setProgress i progress).1, hr.2.setProgress i progress⟩, .setProgress env i progress, rfl⟩

theorem bindVar (id : Text) (t : Ty) :
    (twins exact).Holds [id] (Check.bindVar id t) (Check.bindVar id t) env env' fun _ => True := by
  refine .changeOr (fun _ _ => False.elim) fun env₁ hr hb => ?_
  obtain ⟨env₁', hb', ht₁⟩ := hr.2.bindVar? hb
  refine ⟨⟨?_, (extends_bindVar? hb).frames⟩, env₁', ⟨(hr.1.bindVar? hb).1, ht₁⟩, fun _ => hb'⟩
  obtain ⟨f, fs, -, rfl⟩ := exists_of_bindVar? hb
  exact .of_closures_eq rfl (Nat.le_refl _)

/-- A step in other frames, which are twins or the same whether the open ones are or not. -/
theorem inFrames {x y : Check α} {frames frames' : List Frame} {post : α → Prop}
    (hw : WellLinked env.closures env.nextScope frames) (hsame : exact' → frames = frames')
    (htwins : Twins env.HygienicAt frames frames')
    (h : (twins exact').Holds names x y { env with frames } { env' with frames := frames' } post) :
    (twins exact).Holds [] (Check.inFrames frames x) (Check.inFrames frames' y) env env' post := by
  refine .inFrames (fun hr => ?_) h
  refine ⟨⟨hr.1.with_frames hw, hr.2.with_frames hsame htwins⟩, fun {_ env₁ env₁'} hm hr₁ => ?_, fun _ => trivial,
    fun _ => trivial, id, fun _ => trivial⟩
  have hown : ∀ i, env.HygienicAt i → env₁.HygienicAt i := fun i hi => hm.1.hygienicAt hi
  refine ⟨⟨⟨⟨hm.1.closures, hm.1.nextScope⟩, hm.1.functions⟩, rfl⟩, ?_, ?_⟩
  · exact hr₁.1.with_frames (hr.1.frames.mono hm.1.closures hm.1.nextScope)
  · exact hr₁.2.with_frames hr.2.same (hr.2.frames.mono hown)

theorem settleReturn (site : Path) (f : Function) (t : Ty) :
    (twins exact).Holds [] (settleReturn site f t) (settleReturn site f t) env env' fun _ => True := by
  refine .settleReturn rfl (fun ⟨_, ht⟩ => ?_) (fun _ ⟨hs, ht⟩ => ?_) trivial
  · rw [Notes.returnOf, Notes.returnOf, ht.returns]
  · refine ⟨⟨⟨hs.frames, hs.captured⟩, ht.with_notes ?_⟩, .of_closures_eq rfl (Nat.le_refl _), rfl⟩
    rw [Notes.setReturn, Notes.setReturn, ht.returns]

/-- The function of a closure that is found is the same in twins. -/
theorem callee {i : Nat} (hr : (twins exact).related env env') (hi : ∃ id, env.lookupFun? id = some i) :
    (twins exact).Callee env env' i := by
  obtain ⟨id, hi⟩ := hi
  obtain ⟨c, hc⟩ := hr.1.exists_closure hi
  obtain ⟨c', hc', htwin⟩ := hr.2.closures i c hc
  refine ⟨fun _ => ?_, fun h => h.elim, fun _ {_ env₁ env₁'} _ hr₁ => ⟨trivial, fun _ => ?_⟩,
    fun {_ env₁ env₁'} hm hr₁ _ => ?_⟩
  · show (env'.closure i).function.signature.params = _
    rw [closure_eq hc, closure_eq hc', htwin.function]
  · show env₁'.returnOf (env'.closure i) = _
    rw [closure_eq hc, closure_eq hc', hr₁.2.returnOf_eq htwin]
  · obtain ⟨c₁, hc₁, -⟩ := hm.1.functions i c hc
    obtain ⟨c₁', hc₁', htwin₁⟩ := hr₁.2.closures i c₁ hc₁
    show (env₁'.closure i).progress = _
    rw [closure_eq hc₁, closure_eq hc₁', htwin₁.progress]

/-! ## Rules -/

section
variable {w : Walker} (hw : w.Follows) {p : Path} {loc : Location}
include hw

theorem checkFunction (site : Path) {f : Function} (hf : exact ∨ f.Hygienic) :
    (twins exact).Holds [] (checkFunction w site f) (checkFunction w site f) env env' fun _ => True := by
  refine .checkFunction ?_ (fun _ => hw.typeOf (hf.imp_right (·.body))) fun t _ _ _ _ => settleReturn site f t
  refine .bindParameters rfl (fun param hparam => ?_) fun _ _ _ _ => bindVar _ _
  exact hf.imp_right fun hf => hf.params param hparam

theorem bodyRule (occasion : Occasion) (i : Nat) (hi : ∃ id, env.lookupFun? id = some i) :
    (twins exact).Holds [] (bodyRule w occasion i) (bodyRule w occasion i) env env' fun _ => True := by
  refine (setProgress i .checking).bind fun _ env₁ env₁' hm _ => .get (.assuming fun ⟨hs, ht⟩ => ?_)
  obtain ⟨id, hi⟩ := hi
  have hi₁ : env₁.lookupFun? id = some i := lookupFun?_of_outline_eq hm.2 id ▸ hi
  obtain ⟨c, hc⟩ := hs.exists_closure hi₁
  obtain ⟨c', hc', htwin⟩ := ht.closures i c hc
  rw [closure_eq hc, closure_eq hc']
  dsimp only
  rw [← htwin.site, ← htwin.function]
  -- the body is checked in frames that are the same, or else its function is hygienic
  have hbody : ∀ frames frames', WellLinked env₁.closures env₁.nextScope frames →
      (frames = frames' ∨ c.function.Hygienic ∧ Twins env₁.HygienicAt frames frames') →
      (twins exact).Holds []
        (Check.inFrames frames (Typing.checkFunction w c.site c.function) >>= fun _ => Check.setProgress i .checked)
        (Check.inFrames frames' (Typing.checkFunction w c.site c.function) >>= fun _ => Check.setProgress i .checked)
        env₁ env₁' fun _ => True := by
    rintro frames frames' hw' (rfl | ⟨hf, htwins⟩)
    · have hsame : True → frames = frames := fun _ => rfl
      exact (inFrames hw' hsame (.same _) (checkFunction hw _ (.inl trivial))).bind
        fun _ _ _ _ _ => setProgress i .checked
    · have hsame : False → frames = frames' := False.elim
      exact (inFrames hw' hsame htwins (checkFunction hw _ (.inr hf))).bind fun _ _ _ _ _ => setProgress i .checked
  cases occasion with
  | call =>
    obtain ⟨frames, frames', hframes, hframes', hcases⟩ := ht.declaringFrames? hs hi₁ hc
    refine .read (c := frames) (d := frames') ?_ (fun _ _ => ?_) (hbody _ _ (hs.declaringFrames? hframes) hcases)
    · rw [bodyFrames, declaringFrames_apply, hframes]
      rfl
    · rw [bodyFrames, ← htwin.scope, declaringFrames_apply, hframes']
      rfl
  | declaration => exact hbody _ _ (hs.captured i c hc).1 htwin.captured

theorem walks {i : Nat} {es : List Expr} (he : exact ∨ ∀ e ∈ es, e.Hygienic) (env : Env) :
    (twins exact).Walks w w (fun _ _ => True) p i es es env :=
  .of_same fun _ part hk _ _ _ _ =>
    (hw.typeOf (he.imp_right fun he => he part (List.mem_of_getElem? hk))).weaken fun _ _ => ⟨trivial, trivial⟩

/-- The functions of a block are registered in both environments or in neither. -/
theorem blockRule {functions : List Function} {statements : List Expr} (hf : exact ∨ ∀ f ∈ functions, f.Hygienic)
    (he : exact ∨ ∀ e ∈ statements, e.Hygienic) :
    (twins exact).Holds [] (blockRule w p functions statements) (blockRule w p functions statements) env env'
      fun _ => True := by
  cases hreg : registerAll p 0 functions env.enter with
  | error fault env₁ =>
    intro _
    rw [blockRule_apply, hreg]
    exact ⟨trivial, False.elim⟩
  | ok _ env₁ =>
    obtain ⟨env₂, funs, h, hrun⟩ := blockRule_registered hreg
    obtain ⟨env₁', hreg'⟩ := (Registered.enter p env).registerAll_ok (Registered.enter p env') hreg
    obtain ⟨env₂', funs', h', hrun'⟩ := blockRule_registered hreg'
    have hstatements : (twins exact).Holds (bindingsOf statements)
        (typeStatements w p functions.length .unit statements) (typeStatements w p functions.length .unit statements)
        env₂ env₂' fun _ => True := (Holds.typeStatements rfl trivial (walks hw he env₂)).ended
    refine .within (hrun w statements) (hrun' w statements) (fun hr => ?_) hstatements
    exact twins_within ⟨h.sound hr.1, h.twin h' hr.2 hf⟩ h.retains (by rw [h.frames]; rfl)

theorem rule {e : Expr} (he : exact ∨ e.Hygienic ∧ ∀ loc count body, e ≠ countingLoop loc count body) :
    (twins exact).Holds e.bindings (rule w p e) (rule w p e) env env' fun _ => True := by
  have hchildren : exact ∨ ∀ part ∈ e.children, part.Hygienic := he.imp_right fun he => he.1.children he.2
  have hparts : ∀ env, (twins exact).Walks w w (fun _ _ => True) p 0 e.children e.children env := walks hw hchildren
  cases hscope : e.changesScope with
  | false =>
    refine (Holds.rule (.refl (fun _ => rfl) e) hscope (fun loc id h => ?_) (fun _ _ _ => trivial) (hparts _)).ended
    rcases h with rfl | hfirst
    · exact he.imp_right fun | ⟨.name hid, _⟩ => hid
    · exact hchildren.imp_right fun hall => by
        cases hall _ (List.mem_of_getElem? hfirst) with
        | name hid => exact hid
  | true =>
    cases e with
    | letIn loc id value =>
      have hid : exact ∨ id ≠ countingVariable := he.imp_right fun | ⟨.letIn hid _, _⟩ => hid
      exact (Holds.letRule rfl hid (fun _ _ _ _ => bindVar _ _) (hparts _)).ended
    | block loc functions statements =>
      refine blockRule hw (he.imp_right fun h => ?_) (he.imp_right fun | ⟨.block _ _ hs, _⟩ => hs)
      cases h.1 with
      | block hp hf _ => exact fun f hm => ⟨hp f hm, hf f hm⟩
    | call loc callee args =>
      refine (Holds.callRule rfl callee ?_ (hparts _) ?_ ?_).ended
      · exact List.forall₂_same.2 fun arg _ => .refl (fun _ => rfl) arg
      · exact fun i hr hi => Follows.callee hr ⟨callee, hi⟩
      · exact fun i hi _ env₁ _ hm => hw.checkClosure ⟨callee, lookupFun?_of_outline_eq hm.2 callee ▸ hi⟩
    | funDecl loc id => exact (Holds.declarationRule id fun i hi => hw.checkClosure ⟨id, hi⟩).ended
    | _ => cases hscope

end

/-- A counting loop hides its variable from twins: the count and the body see the same in both. -/
theorem countingLoop {limit : Nat} (hw : ∀ m ≤ limit, (walker m).Follows) {p : Path} {loc : Location}
    {count body : Expr} (hc : count.Hygienic) (hb : body.Hygienic) :
    (twins exact).Holds [] (typeOf (limit + 1) p (countingLoop loc count body))
      (typeOf (limit + 1) p (countingLoop loc count body)) env env' fun _ => True := by
  refine twins_holds_iff.2 fun hs ht t env₃ hrun => ?_
  obtain _ | _ | limit := limit
  · cases hrun
  · cases hrun
  · obtain ⟨rfl, counted, env₁, last, env₂, hcount, hcounted, hbody, rfl⟩ := countingLoop_run.1 hrun
    have hs₀ : (env.started p countingVariable .int).Sound := (hs.entered _ _).noted.noted.noted
    have ht₀ : (env.started p countingVariable .int).Twin exact (env'.started p countingVariable .int) :=
      (ht.entered _ _).noted.noted.noted
    obtain ⟨⟨hr₁, hf₁⟩, env₁', hcount', hs₁, ht₁⟩ :=
      (hw (limit + 1) (Nat.le_succ _)).typeOf_of_ok (.inr hc) hs₀ ht₀ hcount
    have ht₁' : (((env₁.noted (1 :: p) .bool).noted (1 :: 2 :: p) .int).stepped p .int).Twin exact
        (((env₁'.noted (1 :: p) .bool).noted (1 :: 2 :: p) .int).stepped p .int) := ht₁.noted.noted.noted.noted
    obtain ⟨⟨hr₂, hf₂⟩, env₂', hbody', hs₂, ht₂⟩ :=
      (hw (limit + 2) (Nat.le_refl _)).typeOf_of_ok (.inr hb) hs₁.noted.noted.noted.noted ht₁' hbody
    have hstarted : env.Retains (env.started p countingVariable .int) := .of_closures_eq rfl (Nat.le_succ _)
    have hstepped : env₁.Retains (((env₁.noted (1 :: p) .bool).noted (1 :: 2 :: p) .int).stepped p .int) :=
      .of_closures_eq rfl (Nat.le_refl _)
    have hleft : env₂.Retains (env₂.leave.noted p .unit) := .of_closures_eq rfl (Nat.le_refl _)
    have hframes : (env₂.leave.noted p .unit).frames = env.frames := Frame.tail_eq_of_outline_eq (hf₂.trans hf₁)
    refine ⟨⟨hstarted.trans (hr₁.trans (hstepped.trans (hr₂.trans hleft))), by rw [hframes]⟩,
      env₂'.leave.noted p .unit, ?_, hs₂.leave.noted, ht₂.leave.noted⟩
    exact countingLoop_run.2 ⟨rfl, counted, env₁', last, env₂', hcount', hcounted, hbody', rfl⟩

end Follows

/-! ## Checks -/

theorem walker_follows (limit : Nat) : (walker limit).Follows := by
  induction limit using Nat.strongRecOn with
  | ind limit ih =>
    cases limit with
    | zero => exact ⟨fun _ => .stop _, fun _ => .stop _⟩
    | succ limit =>
      have hw := ih limit (Nat.lt_succ_self _)
      refine ⟨fun {exact p e env env'} he => ?_, fun hi => Follows.bodyRule hw _ _ hi⟩
      have hnode : (exact ∨ e.Hygienic ∧ ∀ loc count body, e ≠ countingLoop loc count body) →
          (twins exact).Holds e.bindings (typeOf (limit + 1) p e) (typeOf (limit + 1) p e) env env' fun _ => True :=
        fun he => (Follows.rule hw he).noted
      rcases he with hexact | he
      · exact hnode (.inl hexact)
      · rcases he.counting_cases with ⟨loc, count, body, rfl, hc, hb⟩ | hno
        · exact Follows.countingLoop (fun m hm => ih m (Nat.lt_succ_of_le hm)) hc hb
        · exact hnode (.inr ⟨he, hno⟩)

end FrontEnd.Typing
