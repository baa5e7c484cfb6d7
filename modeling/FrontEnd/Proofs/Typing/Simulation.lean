import FrontEnd.Proofs.Typing.Registration

/-!
# Steps of checking against steps of declarative typing

* `Plain` : programs that state all return types, with notes that settle what is stated;
* `Declarable` : every function that is visible would pass its declaration;
* `Simulates` : a step keeps the environment consistent and fails with typing faults only. When it succeeds, so does the
  declarative step, with the same result, by any notes that agree with the environment at the end. When it fails in a
  plain program, so does the declarative step, as long as all visible functions are declarable;
* `Simulates.bind`, `Simulates.refuse`, … : how steps are put together, and the steps themselves.

A check looks into the body of a function at its first call, long before its declaration. What it finds wrong there is
found by the declarative typing of the block that declares the function, which is why failures are compared only where
all visible functions are declarable.
-/

namespace FrontEnd.Typing
open FrontEnd.Expr Env Check

/-- A program that states all return types, and notes that settle them as stated. -/
def Plain (program : Expr) (n : Notes) : Prop :=
  program.Annotated ∧ ∀ site s, Signature.settle n site s = s

/-- Every visible function passes its declaration. -/
def Declarable (n : Notes) (env : Env) : Prop :=
  ∀ f fs, f :: fs <:+ env.frames → ∀ id i, f.funs.find? id = some i → ∀ c, env.closures[i]? = some c →
    c.declaration n (env.scopesOf n (f :: fs)) ≠ none

theorem Plain.agrees {root : Path} {program : Expr} {n : Notes} {t : Trail} {env : Env} (h : Plain program n)
    (hc : Consistent root program t env) : Agrees n env := by
  intro i c hi _
  rw [Closure.settled, h.2, returnOf, Notes.returnOf]
  cases hr : env.notes.returns[c.site]? with
  | none => rfl
  | some ty =>
    obtain ⟨f, hf, hany⟩ := hc.settled _ _ hr
    exact absurd hany (h.1 _ _ _ hf)

theorem Plain.returnOf_ne_any {root : Path} {program : Expr} {n : Notes} {t : Trail} {env : Env} {i : Nat} {c : Closure}
    (h : Plain program n) (hc : Consistent root program t env) (hi : env.closures[i]? = some c) :
    env.returnOf c ≠ .any := by
  rw [returnOf, Notes.returnOf]
  cases hr : env.notes.returns[c.site]? with
  | none => exact h.1 _ _ _ (hc.placed i c hi)
  | some ty =>
    obtain ⟨f, hf, hany⟩ := hc.settled _ _ hr
    exact absurd hany (h.1 _ _ _ hf)

theorem declaration_eq_none {n : Notes} {c c' : Closure} {scopes scopes' : List Scope}
    (hc : c.function = c'.function) (hs : c.site = c'.site) (h : Scope.outline scopes = Scope.outline scopes')
    (hn : c.declaration n scopes = none) : c'.declaration n scopes' = none := by
  have hn := Judge.within_eq_none_iff.1 hn
  refine Judge.within_eq_none_iff.2 ?_
  rwa [Closure.settled, ← h, ← hc, ← hs]

theorem Declarable.extend {n : Notes} {env env' : Env} (h : Declarable n env) (hl : env.Linked)
    (hx : Extends env env') : Declarable n env' := by
  intro f fs hs id i hi c hc hn
  obtain ⟨g, hg, hid, hfuns⟩ := Frame.suffix_of_outline_eq hx.frames hs
  rw [← hfuns] at hi
  obtain ⟨c', hc', -⟩ := hl.captured g fs hg id i hi
  obtain ⟨progress, hc''⟩ := hx.closures i c' hc'
  cases hc.symm.trans hc''
  have hscopes : Scope.outline (env'.scopesOf n (f :: fs)) = Scope.outline (env.scopesOf n (g :: fs)) := by
    rw [← hx.toGrows.scopesOf_eq hl hg.subset, ← scopesOf_outline, ← scopesOf_outline]
    simp [Frame.outline, hid, hfuns]
  exact h g fs hg id i hi c' hc' (declaration_eq_none rfl rfl hscopes hn)

theorem Declarable.of_suffix {n : Notes} {env : Env} {f : Frame} {fs : List Frame} (h : Declarable n env)
    (hs : f :: fs <:+ env.frames) : Declarable n { env with frames := Frame.outline (f :: fs) } := by
  intro g gs hg id i hi c hc hn
  have houtline : Frame.outline (Frame.outline (f :: fs)) = Frame.outline (f :: fs) := rfl
  obtain ⟨g', hg', hid, hfuns⟩ := Frame.suffix_of_outline_eq houtline hg
  refine h g' gs (hg'.trans hs) id i (hfuns ▸ hi) c hc (declaration_eq_none rfl rfl ?_ hn)
  show Scope.outline (env.scopesOf n (g :: gs)) = Scope.outline (env.scopesOf n (g' :: gs))
  rw [← scopesOf_outline, ← scopesOf_outline]
  simp [Frame.outline, hid, hfuns]

theorem Declarable.enter {n : Notes} {env : Env} (h : Declarable n env) : Declarable n env.enter := by
  intro f fs hs id i hi c hc
  rcases List.suffix_cons_iff.1 hs with heq | hs
  · obtain ⟨rfl, -⟩ := List.cons.inj heq
    cases hi
  · exact h f fs hs id i hi c hc

/-! ## Simulation -/

section
variable (root : Path) (program : Expr) (n : Notes) (t : Trail)

def Simulates {α : Type} (x : Check α) (env : Env) (judge : Judge α) (post : α → Env → Prop) : Prop :=
  Consistent root program t env →
    match x env with
    | .ok a env' =>
      Consistent root program t env' ∧ Extends env env' ∧ post a env' ∧
        (Agrees n env' → judge (env.scopes n) = some (a, env'.scopes n))
    | .error fault _ => fault.IsTyping ∧ (Plain program n → Declarable n env → judge (env.scopes n) = none)

end

namespace Simulates
variable {root : Path} {program : Expr} {n : Notes} {t : Trail} {α β : Type} {env : Env}

theorem pure {a : α} {post : α → Env → Prop} (h : post a env) :
    Simulates root program n t (pure a) env (pure a) post :=
  fun hc => ⟨hc, .refl env, h, fun _ => rfl⟩

theorem refuse {cause : TypeError} {loc : Location} {judge : Judge α} {post : α → Env → Prop}
    (h : Plain program n → judge (env.scopes n) = none) :
    Simulates root program n t (Check.refuse cause loc) env judge post :=
  fun _ => ⟨⟨cause, loc, rfl⟩, fun hp _ => h hp⟩

theorem refuse_bind {cause : TypeError} {loc : Location} {f : β → Check α} {judge : Judge α} {post : α → Env → Prop}
    (h : Plain program n → judge (env.scopes n) = none) :
    Simulates root program n t (Check.refuse cause loc >>= f) env judge post :=
  fun _ => ⟨⟨cause, loc, rfl⟩, fun hp _ => h hp⟩

theorem bind {x : Check α} {f : α → Check β} {judge : Judge α} {next : α → Judge β} {post : α → Env → Prop}
    {post' : β → Env → Prop} (hx : Simulates root program n t x env judge post)
    (hf : ∀ a env', Consistent root program t env' → Extends env env' → post a env' →
      Simulates root program n t (f a) env' (next a) post') :
    Simulates root program n t (x >>= f) env (judge >>= next) post' := by
  intro hc
  have hx := hx hc
  rw [bind_apply, Judge.bind_apply]
  cases h : x env with
  | error fault env' =>
    rw [h] at hx
    exact ⟨hx.1, fun hp hd => by rw [hx.2 hp hd]; rfl⟩
  | ok a env' =>
    rw [h] at hx
    obtain ⟨hc', hxt, hpost, hjudge⟩ := hx
    have hf := hf a env' hc' hxt hpost hc'
    dsimp only
    cases h' : f a env' with
    | error fault env'' =>
      rw [h'] at hf
      refine ⟨hf.1, fun hp hd => ?_⟩
      rw [hjudge (hp.agrees hc')]
      exact hf.2 hp (hd.extend hc.linked hxt)
    | ok b env'' =>
      rw [h'] at hf
      obtain ⟨hc'', hxt', hpost', hjudge'⟩ := hf
      refine ⟨hc'', hxt.trans hxt', hpost', fun ha => ?_⟩
      rw [hjudge (ha.of_grows hxt'.toGrows)]
      exact hjudge' ha

theorem assuming {x : Check α} {judge : Judge α} {post : α → Env → Prop}
    (h : Consistent root program t env → Simulates root program n t x env judge post) :
    Simulates root program n t x env judge post :=
  fun hc => h hc hc

theorem congr {x : Check α} {judge judge' : Judge α} {post : α → Env → Prop}
    (hj : judge (env.scopes n) = judge' (env.scopes n)) (h : Simulates root program n t x env judge' post) :
    Simulates root program n t x env judge post := by
  unfold Simulates at h ⊢
  rwa [hj]

/-- A step that has no counterpart. -/
theorem step {x : Check Unit} {f : Unit → Check β} {judge : Judge β} {post : Unit → Env → Prop}
    {post' : β → Env → Prop} (hx : Simulates root program n t x env (Pure.pure ()) post)
    (hf : ∀ env', Consistent root program t env' → Extends env env' → post () env' →
      Simulates root program n t (f ()) env' judge post') :
    Simulates root program n t (x >>= f) env judge post' := by
  have h : Simulates root program n t (x >>= f) env ((Pure.pure () : Judge Unit) >>= fun _ => judge) post' :=
    bind hx fun _ env' hc hxt hpost => hf env' hc hxt hpost
  exact h

theorem get {f : Env → Check α} {judge : Judge α} {post : α → Env → Prop}
    (h : Simulates root program n t (f env) env judge post) :
    Simulates root program n t (MonadState.get >>= f) env judge post := h

/-- A condition that both steps have. -/
theorem require {c p : Prop} [Decidable c] [Decidable p] (hcp : p ↔ ¬ c) {cause : TypeError} {loc : Location}
    {f : Unit → Check α} {next : Unit → Judge α} {post : α → Env → Prop}
    (h : p → Simulates root program n t (f ()) env (next ()) post) :
    Simulates root program n t (if c then Check.refuse cause loc >>= f else f ()) env (guard p >>= next) post := by
  by_cases hc : c
  · rw [if_pos hc]
    refine refuse_bind fun _ => ?_
    rw [Judge.guard_bind_apply, if_neg (by simpa [hcp] using hc)]
  · rw [if_neg hc, guard, if_pos (hcp.2 hc)]
    exact h (hcp.2 hc)

theorem variableType {id : Text} {ty : Ty} {x : Check α} {next : Ty → Judge α} {post : α → Env → Prop}
    (hv : env.lookupVar? id = some ty) (h : Simulates root program n t x env (next ty) post) :
    Simulates root program n t x env (Judge.variableType id >>= next) post := by
  refine congr ?_ h
  rw [Judge.variableType_bind_apply, findSome?_vars_scopes, hv]
  rfl

theorem signature {id : Text} {i : Nat} {x : Check α} {next : Signature → Judge α} {post : α → Env → Prop}
    (hf : env.lookupFun? id = some i)
    (h : Simulates root program n t x env (next ((env.closure i).settled n)) post) :
    Simulates root program n t x env (Judge.signature id >>= next) post := by
  refine congr ?_ h
  rw [Judge.signature_bind_apply, findSome?_funs_scopes, hf]
  rfl

theorem requireNoVar {id : Text} {cause : TypeError} {loc : Location} {f : Unit → Check α} {next : Unit → Judge α}
    {post : α → Env → Prop} (h : Simulates root program n t (f ()) env (next ()) post) :
    Simulates root program n t (if env.hasVar id = true then Check.refuse cause loc >>= f else f ()) env
      (Judge.requireNoVar id >>= next) post := by
  have hhas := any_contains_vars_scopes n env id
  cases hv : env.hasVar id with
  | true =>
    refine refuse_bind fun _ => ?_
    rw [Judge.requireNoVar_bind_apply, hhas, hv]
    rfl
  | false =>
    intro hc
    have h := h hc
    rw [Judge.requireNoVar_bind_apply, hhas, hv]
    exact h

/-! ## Single steps -/

theorem note (p : Path) (ty : Ty) :
    Simulates root program n t (Check.note p ty) env (Pure.pure ()) fun _ _ => True := by
  intro hc
  have hx : Extends env { env with notes := env.notes.setType p ty } :=
    ⟨⟨fun _ c h => ⟨c.progress, h⟩, Nat.le_refl _, fun _ _ _ _ => rfl⟩, rfl⟩
  exact ⟨hc.extend hx hc.typed hc.placed hc.settled hc.checking, hx, trivial, fun _ => rfl⟩

theorem bindVar {id : Text} {ty : Ty} (hne : env.frames ≠ []) (hty : ty ≠ .any) :
    Simulates root program n t (Check.bindVar id ty) env (Judge.bindVar id ty) fun _ _ => True := by
  intro hc
  obtain ⟨f, fs, hf⟩ := List.exists_cons_of_ne_nil hne
  have hx : Extends env { env with frames := { f with vars := f.vars.insert id ty } :: fs } :=
    ⟨⟨fun _ c h => ⟨c.progress, h⟩, Nat.le_refl _, fun _ _ _ _ => rfl⟩, by rw [hf]; rfl⟩
  rw [Check.bindVar, changeOr_apply, Env.bindVar?, modifyInnermost?, hf]
  refine ⟨hc.extend hx ?_ hc.placed hc.settled hc.checking, hx, trivial, fun _ => ?_⟩
  · have htyped := hc.typed
    rw [hf] at htyped
    refine List.forall_mem_cons.2 ⟨fun id' ty' h => ?_, (List.forall_mem_cons.1 htyped).2⟩
    rw [Dictionary.find?_insert] at h
    split at h
    · exact Option.some.inj h ▸ hty
    · exact (List.forall_mem_cons.1 htyped).1 id' ty' h
  · rw [scopes, hf]
    rfl

theorem inNewFrame {x : Check α} {judge : Judge α} (post : α → Prop)
    (hx : Simulates root program n t x env.enter judge fun a _ => post a) :
    Simulates root program n t (Check.inNewFrame x) env (Judge.inNewScope judge) fun a _ => post a := by
  intro hc
  have hx := hx hc.enter
  rw [Judge.inNewScope]
  unfold Check.inNewFrame
  cases h : x env.enter with
  | error fault env' =>
    rw [h] at hx
    exact ⟨hx.1, fun hp hd => Judge.within_eq_none_iff.2 (hx.2 hp hd.enter)⟩
  | ok a env' =>
    rw [h] at hx
    obtain ⟨hc', hxt, hpost, hjudge⟩ := hx
    have hg := (grows_enter env).trans hxt.toGrows
    dsimp only
    rw [hxt.leave_eq]
    refine ⟨hc.restore hc' hg rfl, hg.restore, hpost, fun ha => ?_⟩
    rw [hg.scopes_restore hc.linked]
    exact Judge.within_eq_some (hjudge ha)

end Simulates
end FrontEnd.Typing
