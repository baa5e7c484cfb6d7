import FrontEnd.Proofs.Typing.Rules

/-!
# The rules for functions

* `Simulates.checkFunction`, `Simulates.bodyRule` : the check of a body, which follows the declaration of its function;
* `Simulates.callRule`, `Simulates.declarationRule`, `Simulates.blockRule` : the rules from which bodies are entered.
-/

namespace FrontEnd.Typing
open FrontEnd.Expr Env Check

/-- Settling the return type of a function that has none yet. -/
theorem extends_setReturn {root site : Path} {program : Expr} {env : Env} {f : Function} (ty : Ty)
    (hf : Places root program site f) (hret : env.notes.returnOf site f.signature = .any)
    (hplaced : ∀ (i : Nat) (c : Closure), env.closures[i]? = some c → Places root program c.site c.function) :
    Extends env { env with notes := env.notes.setReturn site ty } := by
  refine ⟨⟨fun _ c h => ⟨c.progress, h⟩, Nat.le_refl _, fun i c hi hr => ?_⟩, rfl⟩
  rw [returnOf, returnOf, Notes.returnOf_setReturn]
  split
  · next hs =>
    have hplace := hplaced i c hi
    rw [← hs] at hplace
    rw [returnOf, ← hs, hplace.unique hf] at hr
    exact absurd hret hr
  · rfl

namespace Simulates
variable {root : Path} {program : Expr} {n : Notes} {t : Trail} {w : Walker} {p : Path} {env : Env} {loc : Location}

/-! ## Bodies -/

theorem bindParameters {params : List (Text × Ty)} (hp : ∀ param ∈ params, param.2 ≠ .any) (hne : env.frames ≠ []) :
    Simulates root program n t (bindParameters loc params) env (Judge.bindParameters params) fun _ _ => True := by
  induction params generalizing env with
  | nil => exact pure trivial
  | cons param params ih =>
    obtain ⟨hty, hp⟩ := List.forall_mem_cons.1 hp
    refine get (requireNoVar ?_)
    refine (bindVar hne hty).bind fun _ env' _ hx _ => ?_
    exact ih hp (hx.frames_ne_nil hne)

/-- Settling the return type of a function whose body has a type. -/
theorem settleReturn {site : Path} {f : Function} (ty : Ty) (hf : Places root program site f)
    (hret : env.notes.returnOf site f.signature = .any) (hc : Consistent root program t env) :
    Extends env { env with notes := env.notes.setReturn site ty } ∧
      Consistent root program t { env with notes := env.notes.setReturn site ty } := by
  have hany : f.signature.ret = .any := by
    rw [Notes.returnOf] at hret
    cases hr : env.notes.returns[site]? with
    | none => rwa [hr] at hret
    | some ty' =>
      obtain ⟨g, hg, hany⟩ := hc.settled site ty' hr
      rwa [hg.unique hf] at hany
  have hx := extends_setReturn ty hf hret hc.placed
  refine ⟨hx, hc.extend hx hc.typed hc.placed (fun site' ty' h => ?_) hc.checking⟩
  simp only [Notes.setReturn, Std.TreeMap.getElem?_insert, Std.LawfulEqCmp.compare_eq_iff_eq] at h
  split at h
  · next hs => exact ⟨f, hs ▸ hf, hany⟩
  · exact hc.settled site' ty' h

/-- The type of a body against the return type of its function, which it settles if nothing is stated. -/
theorem checkReturn {i : Nat} {c : Closure} {ty : Ty} (hi : env.closures[i]? = some c) (hty : ty ≠ .any) :
    Simulates root program n t
      (do
        let ret := (← MonadState.get).notes.returnOf c.site c.function.signature
        if ret = .any then modify fun env => { env with notes := env.notes.setReturn c.site ty }
        else if ret ≠ ty then Check.refuse (.returnType ret ty) c.function.signature.loc
        return ty) env
      (do
        guard (ty = (c.settled n).ret)
        return ty) fun ty _ => ty ≠ .any := by
  refine get (assuming fun hc => ?_)
  have passes : ∀ scopes : List Scope, (c.settled n).ret = ty →
      (guard (ty = (c.settled n).ret) >>= fun _ => Pure.pure ty : Judge Ty) scopes = some (ty, scopes) := by
    intro scopes heq
    rw [Judge.guard_bind_apply, if_pos heq.symm]
    rfl
  dsimp only
  by_cases hret : env.notes.returnOf c.site c.function.signature = .any
  · obtain ⟨hx, hc'⟩ := settleReturn ty (hc.placed i c hi) hret hc
    rw [if_pos hret]
    refine fun _ => ⟨hc', hx, hty, fun ha => passes _ ?_⟩
    have hsettled : Env.returnOf { env with notes := env.notes.setReturn c.site ty } c = ty := by
      rw [returnOf, Notes.returnOf_setReturn, if_pos rfl]
    exact (ha i c hi (by rwa [hsettled])).trans hsettled
  · rw [if_neg hret]
    by_cases heq : env.notes.returnOf c.site c.function.signature = ty
    · rw [if_neg (not_not.2 heq)]
      exact fun _ => ⟨hc, .refl env, hty, fun ha => passes _ ((ha i c hi hret).trans heq)⟩
    · rw [if_pos heq]
      refine refuse_bind fun hp => ?_
      rw [Judge.guard_bind_apply, if_neg]
      rw [hp.agrees hc i c hi hret]
      exact Ne.symm heq

theorem checkFunction (env : Env) {i : Nat} {c : Closure} (hi : env.closures[i]? = some c)
    (hp : ∀ param ∈ c.function.signature.params, param.2 ≠ .any)
    (hb : Types root program n t w c.site c.function.body) :
    Simulates root program n t (checkFunction w c.site c.function) env
      (Judge.body (c.settled n) (Judge.typeOf (settle n c.site c.function.body))) fun ty _ => ty ≠ .any := by
  refine (inNewFrame (· ≠ .any) ?_).bind fun ty env' _ hx hty => ?_
  · refine (bindParameters hp (List.cons_ne_nil _ _)).bind fun _ env' _ hx _ => ?_
    exact hb env' (hx.frames_ne_nil (List.cons_ne_nil _ _))
  · obtain ⟨progress, hi'⟩ := hx.closures i c hi
    exact checkReturn (c := { c with progress }) hi' hty

theorem bodyFrames_eq (occasion : Occasion) {i : Nat} {c : Closure} {f : Frame} {fs : List Frame} {id : Text}
    (hl : env.Linked) (hc : env.closures[i]? = some c) (hs : f :: fs <:+ env.frames) (hi : f.funs.find? id = some i) :
    bodyFrames occasion c env = .ok (Frame.outline (f :: fs)) env := by
  obtain ⟨c', hc', hscope, hcaptured⟩ := hl.captured f fs hs id i hi
  cases hc.symm.trans hc'
  cases occasion with
  | call =>
    rw [bodyFrames, declaringFrames, get_bind_apply, hscope, Env.declaringFrames?_eq hl.decreasing hs]
    rfl
  | declaration => rw [bodyFrames, ← hcaptured]; rfl

theorem bodyRule_apply {occasion : Occasion} {i : Nat} {c : Closure} {frames : List Frame}
    (hc : (env.setProgress i .checking).closure i = c)
    (hf : bodyFrames occasion c (env.setProgress i .checking) = .ok frames (env.setProgress i .checking)) :
    bodyRule w occasion i env =
      match Typing.checkFunction w c.site c.function (env.inBody i frames) with
      | .ok _ env' => .ok () (env.afterBody i env')
      | .error fault env' => .error fault { env' with frames := env.frames } := by
  subst hc
  show (bodyFrames occasion _ >>= fun frames => inFrames frames _ >>= fun _ => Check.setProgress i .checked)
    (env.setProgress i .checking) = _
  rw [bind_apply, hf]
  dsimp only
  rw [bind_apply]
  unfold inFrames inBody
  cases Typing.checkFunction w _ _ { env.setProgress i .checking with frames } <;> rfl

theorem bodyRule_error {occasion : Occasion} {i : Nat} {c : Closure} {frames : List Frame} {fault : Fault} {env' : Env}
    (hc : (env.setProgress i .checking).closure i = c)
    (hf : bodyFrames occasion c (env.setProgress i .checking) = .ok frames (env.setProgress i .checking))
    (h : Typing.checkFunction w c.site c.function (env.inBody i frames) = .error fault env') :
    Typing.bodyRule w occasion i env = .error fault { env' with frames := env.frames } := by
  rw [bodyRule_apply hc hf, h]

/-- The check of a visible function's body. It fails only if the function does not pass its declaration. -/
theorem bodyRule {occasion : Occasion} {i : Nat} {c : Closure} {f : Frame} {fs : List Frame} {id : Text}
    {judge : Judge Unit} (hc : env.closures[i]? = some c) (hs : f :: fs <:+ env.frames)
    (hi : f.funs.find? id = some i) (hfresh : i ∉ t.positions)
    (hp : ∀ param ∈ c.function.signature.params, param.2 ≠ .any)
    (hb : Types root program n (⟨.body occasion i c.site, env⟩ :: t) w c.site c.function.body)
    (hj : c.declaration n (env.scopesOf n (f :: fs)) ≠ none → judge (env.scopes n) = some ((), env.scopes n)) :
    Simulates root program n t (Typing.bodyRule w occasion i) env judge fun _ _ => True := by
  intro hcon
  have hx := extends_setProgress env i .checking
  have hc₁ : (env.setProgress i .checking).closures[i]? = some { c with progress := .checking } := by
    rw [getElem?_setProgress, if_pos rfl, hc]
    rfl
  have hframes := bodyFrames_eq occasion (hcon.linked.extend hx) hc₁ hs hi
  rw [bodyRule_apply (closure_eq hc₁) hframes]
  have hwalk := hcon.walk occasion hc hs hi
  have hrun := checkFunction (env.inBody i (Frame.outline (f :: fs))) hc₁ hp hb hwalk
  have hscopes : Env.scopes n (env.inBody i (Frame.outline (f :: fs))) =
      Scope.outline (env.scopesOf n (f :: fs)) := by
    rw [← hx.toGrows.scopesOf_eq hcon.linked hs.subset, ← scopesOf_outline]
    rfl
  rw [hscopes] at hrun
  cases h : Typing.checkFunction w c.site c.function
      (env.inBody i (Frame.outline (f :: fs))) with
  | error fault env' =>
    rw [h] at hrun
    -- what is wrong with the body is wrong with its declaration
    refine ⟨hrun.1, fun hplain hd => ?_⟩
    have hnone := hrun.2 hplain ((hd.extend hcon.linked hx).of_suffix hs)
    exact absurd (Judge.within_eq_none_iff.2 hnone) (hd f fs hs id i hi c hc)
  | ok ty env' =>
    rw [h] at hrun
    obtain ⟨hc', hx', -, hjudge⟩ := hrun
    have hg : Grows env env' := hx.toGrows.trans ⟨hx'.closures, hx'.nextScope, hx'.returns⟩
    have hback := hg.restore.trans (extends_setProgress { env' with frames := env.frames } i .checked)
    refine ⟨hcon.walked_back hc' hg hfresh, hback, trivial, fun ha => ?_⟩
    have hscopes' : Env.scopes n (env.afterBody i env') = env.scopes n :=
      hback.toGrows.scopesOf_eq hcon.linked (List.Subset.refl _)
    have hagrees : Agrees n { env' with frames := env.frames } := ha.of_grows (extends_setProgress _ _ _).toGrows
    rw [hscopes']
    refine hj fun hnone => ?_
    cases (hjudge hagrees).symm.trans (Judge.within_eq_none_iff.1 hnone)

/-! ## Calls and declarations -/

theorem checkArguments {callee : Text} {i : Nat} {args : List Expr} {params : List (Text × Ty)}
    (ha : ∀ k arg, args[k]? = some arg → Types root program n t w ((i + k) :: p) arg) (hne : env.frames ≠ []) :
    Simulates root program n t (checkArguments w callee p i args params) env
      (Judge.checkArguments (settleAll n p i args) params) fun _ _ => True := by
  induction args generalizing i params env with
  | nil =>
    rw [settleAll, Judge.checkArguments, Typing.checkArguments]
    · exact pure trivial
    · simp
    · simp
  | cons arg args ih =>
    rw [settleAll]
    cases params with
    | nil =>
      rw [Judge.checkArguments, Typing.checkArguments]
      · exact pure trivial
      · simp
      · simp
    | cons param params =>
      obtain ⟨id, expected⟩ := param
      rw [Judge.checkArguments, Typing.checkArguments]
      refine (ha 0 arg rfl env hne).bind fun ty env' _ hx _ => ?_
      refine require (p := ty = expected) ?_ fun _ => ?_
      · simp
      · refine ih (fun k arg hk => ?_) (hx.frames_ne_nil hne)
        rw [show i + 1 + k = i + (k + 1) by omega]
        exact ha (k + 1) arg hk

/-- The return type of a function is what it was when its call was looked at, if it was settled then. -/
theorem returned {env' : Env} {i : Nat} {c : Closure} (hc : env.closures[i]? = some c) (hr : env.returnOf c ≠ .any)
    (hg : Grows env env') :
    Simulates root program n t (do return (← MonadState.get).returnOf c) env' (Pure.pure (c.settled n).ret)
      fun ty _ => ty ≠ .any := by
  intro hcon
  have heq := hg.returns i c hc hr
  obtain ⟨progress, hc'⟩ := hg.closures i c hc
  refine ⟨hcon, .refl env', fun hany => hr (heq ▸ hany), fun ha => ?_⟩
  have hsettled : (c.settled n).ret = env'.returnOf c := ha i { c with progress } hc' fun hany => hr (heq ▸ hany)
  rw [hsettled]
  rfl

theorem callRule {callee : Text} {args : List Expr}
    (ha : ∀ k arg, args[k]? = some arg → Types root program n t w (k :: p) arg) (hne : env.frames ≠ [])
    (hbody : ∀ env' i, Extends env env' → env'.lookupFun? callee = some i → (env'.closure i).progress = .unchecked →
      Simulates root program n t (w.checkClosure .call i) env' (Pure.pure ()) fun _ _ => True) :
    Simulates root program n t (callRule w p loc callee args) env
      (Judge.typeOf (settle n p (.call loc callee args))) fun ty _ => ty ≠ .any := by
  rw [settle, Judge.typeOf]
  refine get (assuming fun hc => ?_)
  cases h : env.lookupFun? callee with
  | none =>
    refine refuse fun _ => ?_
    rw [Judge.signature_bind_apply, findSome?_funs_scopes, h]
    rfl
  | some i =>
    refine signature h (get (get ?_))
    obtain ⟨-, -, c, -, -, hci, -⟩ := hc.linked.closure_of_lookupFun? h
    rw [closure_eq hci, settleAll_length]
    dsimp only
    by_cases hany : env.returnOf c = .any
    · rw [if_pos hany]
      exact refuse_bind fun hp => absurd hany (hp.returnOf_ne_any hc hci)
    · rw [if_neg hany]
      refine require (p := args.length = c.function.signature.params.length) ?_ fun _ => ?_
      · simp
      · refine (checkArguments (fun k arg hk => ?_) hne).bind fun _ env' _ hx _ => ?_
        · rw [Nat.zero_add]
          exact ha k arg hk
        · refine get ?_
          by_cases hprogress : (env'.closure i).progress = .unchecked
          · rw [if_pos hprogress]
            refine step (hbody env' i hx (hx.lookupFun?_eq callee ▸ h) hprogress) fun env'' _ hx' _ => ?_
            exact returned hci hany (hx.trans hx').toGrows
          · rw [if_neg hprogress]
            exact returned hci hany hx.toGrows

/-- The declaration of a function, which is in the innermost frame. -/
theorem declarationRule {id : Text} {i : Nat} {judge : Judge Ty} (hi : env.lookupFun? id = some i)
    (hbody : Simulates root program n t (w.checkClosure .declaration i) env
      (do
        let _ ← judge
        return ()) fun _ _ => True) :
    Simulates root program n t (declarationRule w id) env
      (do
        let _ ← judge
        return .unit) fun ty _ => ty ≠ .any := by
  have hjudge : (do let _ ← judge; return Ty.unit : Judge Ty) =
      ((do let _ ← judge; return () : Judge Unit) >>= fun _ => Pure.pure Ty.unit) := by
    rw [bind_assoc]
    rfl
  have hrun : Typing.declarationRule w id env = (w.checkClosure .declaration i >>= fun _ => Pure.pure Ty.unit) env := by
    show (registered id >>= _) env = _
    rw [bind_apply, registered, get_bind_apply, hi]
    rfl
  rw [hjudge]
  unfold Simulates
  rw [hrun]
  exact hbody.bind fun _ _ _ _ _ => pure (by simp)

end Simulates
end FrontEnd.Typing
