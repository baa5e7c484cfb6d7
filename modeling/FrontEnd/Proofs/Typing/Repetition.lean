import FrontEnd.Proofs.Session
import FrontEnd.Proofs.Syntax.Nodes
import FrontEnd.Proofs.Typing.Comparison
import FrontEnd.Proofs.Typing.Mirror

/-!
# Steps of a check and of its repetition

* `Orderly` : what holds of the environment at every point of a check; `Advances` : what a step changes at most;
* `repetition` : the comparison of a run with its repetition: when a step succeeds, so does its counterpart in the
  second run, with the same result, and when it fails, so does its counterpart, with the same fault;
* `Repeats.bindVar`, `Repeats.inFrames`, … : the steps themselves; `Repeats.callee` : the function that a call means.

The second run knows all return types that the first one settles until its end. A step of the first run that needs a
return type which is not settled yet fails, and then its end is there and the second run does not know the type either.
-/

namespace FrontEnd.Typing
open FrontEnd.Expr Env Check

/-- The types of variables are known. -/
def Typed (frames : List Frame) : Prop := ∀ f ∈ frames, ∀ id ty, f.vars.find? id = some ty → ty ≠ .any

section
variable (root : Path) (program : Expr)

/-- Return types are settled of functions that state none. -/
def Settles (notes : Notes) : Prop :=
  ∀ (site : Path) (ty : Ty), notes.returns[site]? = some ty →
    ty ≠ .any ∧ ∃ f, Places root program site f ∧ f.signature.ret = .any

structure Orderly (env : Env) : Prop extends Env.Sound env where
  typed : Typed env.frames
  closed : ∀ (i : Nat) (c : Closure), env.closures[i]? = some c →
    Places root program c.site c.function ∧ Typed c.captured
  settled : Settles root program env.notes

end

structure Advances (env env' : Env) : Prop extends Env.Keeps env env' where
  ids : env'.frames.map (·.id) = env.frames.map (·.id)
  foretold : env.notes.Foretold env'.notes

namespace Advances
variable {env env' env'' : Env}

theorem refl (env : Env) : Advances env env := ⟨.refl env, rfl, fun _ _ h => h⟩

theorem trans (h : Advances env env') (h' : Advances env' env'') : Advances env env'' :=
  ⟨h.toKeeps.trans h'.toKeeps, h'.ids.trans h.ids, fun site ty hs => h'.foretold site ty (h.foretold site ty hs)⟩

/-- The environment from before with the frames from before. -/
theorem restore {frames : List Frame} (h : Advances { env with frames } env') :
    Advances env { env' with frames := env.frames } :=
  ⟨⟨h.closures, h.nextScope⟩, rfl, h.foretold⟩

theorem leave (h : Advances env.enter env') : Advances env env'.leave := by
  refine ⟨⟨h.closures, Nat.le_trans (Nat.le_succ _) h.nextScope⟩, ?_, h.foretold⟩
  have hids := congrArg List.tail h.ids
  rwa [← List.map_tail, ← List.map_tail] at hids

end Advances

theorem Settles.returnOf_eq {root : Path} {program : Expr} {n n' : Notes} {c : Closure} (h : Settles root program n')
    (hf : n.Foretold n') (hp : Places root program c.site c.function)
    (hany : n.returnOf c.site c.function.signature ≠ .any) :
    n'.returnOf c.site c.function.signature = n.returnOf c.site c.function.signature := by
  rw [Notes.returnOf, Notes.returnOf]
  rw [Notes.returnOf] at hany
  cases hr : n.returns[c.site]? with
  | some ty => rw [hf c.site ty hr]
  | none =>
    rw [hr] at hany
    cases hr' : n'.returns[c.site]? with
    | none => rfl
    | some ty =>
      obtain ⟨-, f, hf, hret⟩ := h c.site ty hr'
      rw [hf.unique hp] at hret
      exact absurd hret hany

/-! ## Operations -/

namespace Orderly
variable {root : Path} {program : Expr} {env env' : Env}

theorem empty (notes : Notes) (h : Settles root program notes) : Orderly root program { notes } := by
  refine ⟨⟨.nil, ?_⟩, ?_, ?_, h⟩ <;> simp [Typed]

theorem with_frames (h : Orderly root program env) {frames : List Frame}
    (hw : WellLinked env.closures env.nextScope frames) (ht : Typed frames) :
    Orderly root program { env with frames } :=
  ⟨h.toSound.with_frames hw, ht, h.closed, h.settled⟩

theorem enter (h : Orderly root program env) : Orderly root program env.enter := by
  refine ⟨h.toSound.enter, List.forall_mem_cons.2 ⟨fun id ty hty => ?_, h.typed⟩, h.closed, h.settled⟩
  cases hty

theorem leave (h : Orderly root program env) : Orderly root program env.leave :=
  h.with_frames (h.frames.of_suffix (List.tail_suffix _)) fun f hf => h.typed f (List.mem_of_mem_tail hf)

theorem lookupVar?_ne_any (h : Orderly root program env) {id : Text} {ty : Ty} (hv : env.lookupVar? id = some ty) :
    ty ≠ .any := by
  obtain ⟨_, f, _, hfs, hf, -⟩ := List.findSome?_eq_some_iff.1 hv
  exact h.typed f (by simp [hfs]) id ty hf

/-- A function that is looked up is that of a closure, which was registered in one of the open frames. -/
theorem exists_closure (h : Orderly root program env) {id : Text} {i : Nat} (hi : env.lookupFun? id = some i) :
    ∃ c, env.closures[i]? = some c ∧ c.scope ∈ env.frames.map (·.id) := by
  obtain ⟨f, fs, hs, hf⟩ := exists_of_lookupFun? hi
  have hm : f ∈ env.frames := hs.subset List.mem_cons_self
  obtain ⟨c, hc, hscope⟩ := h.frames.registered f hm id i hf
  exact ⟨c, hc, hscope ▸ List.mem_map.2 ⟨f, hm, rfl⟩⟩

theorem bindVar? {id : Text} {ty : Ty} (h : Orderly root program env) (hty : ty ≠ .any)
    (hb : env.bindVar? id ty = some env') : Orderly root program env' ∧ Advances env env' := by
  obtain ⟨hs, hk⟩ := h.toSound.bindVar? hb
  obtain ⟨f, fs, hf, rfl⟩ := exists_of_bindVar? hb
  obtain ⟨hfirst, hrest⟩ := List.forall_mem_cons.1 (hf ▸ h.typed)
  refine ⟨⟨hs, List.forall_mem_cons.2 ⟨fun id' ty' h' => ?_, hrest⟩, h.closed, h.settled⟩, hk, ?_, fun _ _ h => h⟩
  · rw [Dictionary.find?_insert] at h'
    split at h'
    · exact Option.some.inj h' ▸ hty
    · exact hfirst id' ty' h'
  · rw [hf]
    rfl

theorem register? {id : Text} {f : Function} {site : Path} (h : Orderly root program env)
    (hp : Places root program site f) (hr : env.register? id f site = some env') :
    Orderly root program env' ∧ Advances env env' := by
  obtain ⟨hs, hk⟩ := h.toSound.register? hr
  obtain ⟨g, gs, hg, rfl⟩ := exists_of_register? hr
  have htyped : Typed (g :: gs) := hg ▸ h.typed
  obtain ⟨hfirst, hrest⟩ := List.forall_mem_cons.1 htyped
  refine ⟨⟨hs, List.forall_mem_cons.2 ⟨hfirst, hrest⟩, fun i c hc => ?_, h.settled⟩, hk, ?_, fun _ _ h => h⟩
  · rw [Array.getElem?_push] at hc
    split at hc
    · cases hc
      exact ⟨hp, h.typed⟩
    · exact h.closed i c hc
  · rw [hg]
    rfl

theorem linkSiblings? (h : Orderly root program env) (hl : env.linkSiblings? = some env') :
    Orderly root program env' ∧ Advances env env' := by
  obtain ⟨hs, hk⟩ := h.toSound.linkSiblings? hl
  cases hf : env.frames with
  | nil =>
    unfold Env.linkSiblings? at hl
    rw [hf] at hl
    cases hl
  | cons f fs =>
    obtain ⟨store, hlink, -, hstore⟩ := linkSiblings?_eq hf
    cases hlink.symm.trans hl
    refine ⟨⟨hs, h.typed, fun i c hc => ?_, h.settled⟩, hk, rfl, fun _ _ h => h⟩
    rw [hstore] at hc
    split at hc
    · obtain ⟨c', hc', rfl⟩ := Option.map_eq_some_iff.1 hc
      obtain ⟨hplace, htyped⟩ := h.closed i c' hc'
      obtain ⟨_, _, _, _ | ⟨g, gs⟩, _⟩ := c'
      · exact ⟨hplace, htyped⟩
      · exact ⟨hplace, List.forall_mem_cons.2 (List.forall_mem_cons.1 htyped)⟩
    · exact h.closed i c hc

theorem setProgress (h : Orderly root program env) (i : Nat) (progress : Progress) :
    Orderly root program (env.setProgress i progress) ∧ Advances env (env.setProgress i progress) := by
  obtain ⟨hs, hk⟩ := h.toSound.setProgress i progress
  refine ⟨⟨hs, h.typed, fun j c hc => ?_, h.settled⟩, hk, rfl, fun _ _ h => h⟩
  rw [getElem?_setProgress] at hc
  split at hc
  · obtain ⟨c', hc', rfl⟩ := Option.map_eq_some_iff.1 hc
    exact h.closed j c' hc'
  · exact h.closed j c hc

theorem setType (h : Orderly root program env) (p : Path) (ty : Ty) :
    Orderly root program { env with notes := env.notes.setType p ty } ∧
      Advances env { env with notes := env.notes.setType p ty } :=
  ⟨⟨⟨h.frames, h.captured⟩, h.typed, h.closed, h.settled⟩, ⟨fun _ c hc => ⟨c, hc, rfl⟩, Nat.le_refl _⟩, rfl,
    fun _ _ h => h⟩

/-- Settling the return type of a function that states none. -/
theorem setReturn {site : Path} {f : Function} {ty : Ty} (h : Orderly root program env)
    (hp : Places root program site f) (hret : env.notes.returnOf site f.signature = .any) (hty : ty ≠ .any) :
    Orderly root program { env with notes := env.notes.setReturn site ty } ∧
      Advances env { env with notes := env.notes.setReturn site ty } ∧
      (env.notes.setReturn site ty).returns[site]? = some ty := by
  -- a type that is settled already is known
  have hnone : env.notes.returns[site]? = none ∧ f.signature.ret = .any := by
    rw [Notes.returnOf] at hret
    cases hr : env.notes.returns[site]? with
    | none => exact ⟨rfl, by rwa [hr] at hret⟩
    | some ty' =>
      rw [hr] at hret
      exact absurd hret (h.settled site ty' hr).1
  have hlookup : ∀ site' : Path, (env.notes.setReturn site ty).returns[site']? =
      if site = site' then some ty else env.notes.returns[site']? := by
    intro site'
    simp [Notes.setReturn, Std.TreeMap.getElem?_insert]
  refine ⟨⟨⟨h.frames, h.captured⟩, h.typed, h.closed, fun site' ty' hs => ?_⟩,
    ⟨⟨fun _ c hc => ⟨c, hc, rfl⟩, Nat.le_refl _⟩, rfl, fun site' ty' hs => ?_⟩, ?_⟩
  · rw [hlookup] at hs
    split at hs
    · next heq =>
      cases hs
      exact ⟨hty, f, heq ▸ hp, hnone.2⟩
    · exact h.settled site' ty' hs
  · rw [hlookup]
    split
    · next heq =>
      rw [← heq, hnone.1] at hs
      cases hs
    · exact hs
  · rw [hlookup, if_pos rfl]

end Orderly

/-! ## Repetition -/

/-- A run in `env`, which is orderly, and its repetition in `env₂`, which mirrors `env` if `n` are the return types at
the end of the first run. Where the first run fails it is at its end. -/
def repetition (root : Path) (program : Expr) (o : Offset) (n : Notes) : Comparison where
  related env env₂ := Orderly root program env ∧ (env.notes.Foretold n → Mirrors o n env env₂)
  moves _ := Advances
  breaks _ env env' := Settles root program env'.notes ∧ Advances env env'
  foretold env := env.notes.Foretold n
  awaited _ env := ∀ site : Path, n.returns[site]? = env.notes.returns[site]?
  faults fault fault' env env₂ := fault' = fault ∧ n.Mirrors env.notes env₂.notes
  typed := (· ≠ .any)
  position := (· + o.closures)

section
variable {root : Path} {program : Expr} {o : Offset} {n : Notes} {env env₂ : Env}

theorem mirrors_of_awaited (hr : (repetition root program o n).related env env₂)
    (hret : ∀ site : Path, n.returns[site]? = env.notes.returns[site]?) : Mirrors o n env env₂ :=
  hr.2 fun site _ hs => (hret site).trans hs

instance : (repetition root program o n).Lawful where
  refl := Advances.refl
  trans := Advances.trans
  breaks_refl hr := ⟨hr.1.settled, .refl _⟩
  breaks_append _ hbreaks := hbreaks
  breaks_after ha hbreaks := ⟨hbreaks.1, ha.trans hbreaks.2⟩
  foretold_of_moves ha hforetold site ty hs := hforetold site ty (ha.foretold site ty hs)
  foretold_of_breaks hbreaks hret site ty hs := (hret site).trans (hbreaks.2.foretold site ty hs)
  refused := by
    rintro cause loc _ env env₂ hr hret rfl
    exact ⟨rfl, (mirrors_of_awaited hr hret).notes⟩
  stopped hr hret := ⟨rfl, (mirrors_of_awaited hr hret).notes⟩
  note p ty hr := ⟨⟨(hr.1.setType p ty).1, fun hforetold => (hr.2 hforetold).setType p ty⟩, (hr.1.setType p ty).2⟩
  enter hr := {
    related := ⟨hr.1.enter, fun hforetold => (hr.2 hforetold).enter⟩
    moves := fun ha hr₁ => ⟨ha.leave, hr₁.1.leave, fun hforetold => (hr₁.2 hforetold).leave⟩
    breaks := fun hbreaks => ⟨hbreaks.1, hbreaks.2.leave⟩
    foretold := id
    awaited := id
    faults := id }
  lookupVar? hr hforetold _ := (hr.2 hforetold).lookupVar?_eq _
  hasVar hr hforetold _ := (hr.2 hforetold).hasVar_eq _
  lookupFun? id hr hforetold := (hr.2 hforetold).lookupFun?_eq id
  typed_of_ne_any h := h
  typed_of_lookupVar? hr h := hr.1.lookupVar?_ne_any h

end

namespace Repeats
open Comparison
variable {root : Path} {program : Expr} {o : Offset} {n : Notes} {α : Type} {names : List Text} {env env₂ : Env}

/-! ## Single steps -/

theorem setProgress (i : Nat) (progress : Progress) :
    (repetition root program o n).Holds [] (Check.setProgress i progress) (Check.setProgress (i + o.closures) progress)
      env env₂ fun _ => True :=
  .change fun hr => ⟨⟨(hr.1.setProgress i progress).1, fun hforetold => (hr.2 hforetold).setProgress i progress⟩,
    (hr.1.setProgress i progress).2⟩

/-- A change that is possible in both runs or in neither. -/
theorem changeOr {cause : InternalError} {f : Env → Option Env}
    (ho : Orderly root program env → ∀ env', f env = some env' → Orderly root program env' ∧ Advances env env')
    (hm : Mirrors o n env env₂ →
      match f env with
      | none => f env₂ = none
      | some env' => ∃ env₂', f env₂ = some env₂' ∧ Mirrors o n env' env₂') :
    (repetition root program o n).Holds names (Check.changeOr cause f) (Check.changeOr cause f) env env₂
      fun _ => True := by
  refine Holds.changeOr (fun hr hf hawaited => ?_) fun env' hr hf => ?_
  · have hm := hm (mirrors_of_awaited hr hawaited)
    rwa [hf] at hm
  · obtain ⟨ho', ha⟩ := ho hr.1 env' hf
    refine ⟨ha, ?_⟩
    by_cases hforetold : env'.notes.Foretold n
    · have hm := hm (hr.2 fun site ty hs => hforetold site ty (ha.foretold site ty hs))
      rw [hf] at hm
      obtain ⟨env₂', hf₂, hm'⟩ := hm
      exact ⟨env₂', ⟨ho', fun _ => hm'⟩, fun _ => hf₂⟩
    · exact ⟨env₂, ⟨ho', fun h => absurd h hforetold⟩, fun h => absurd h hforetold⟩

theorem bindVar {id : Text} {ty : Ty} (hty : ty ≠ .any) :
    (repetition root program o n).Holds [id] (Check.bindVar id ty) (Check.bindVar id ty) env env₂ fun _ => True :=
  changeOr (fun ho _ hb => ho.bindVar? hty hb) fun hm => hm.bindVar? id ty

theorem register {id : Text} {f : Function} {site : Path} (hp : Places root program site f) :
    (repetition root program o n).Holds [] (Check.register id f site) (Check.register id f site) env env₂
      fun _ => True :=
  changeOr (fun ho _ hr => ho.register? hp hr) fun hm => hm.register? id f site

theorem linkSiblings :
    (repetition root program o n).Holds [] Check.linkSiblings Check.linkSiblings env env₂ fun _ => True :=
  changeOr (fun ho _ hl => ho.linkSiblings? hl) fun hm => hm.linkSiblings?

theorem inFrames {x y : Check α} {frames : List Frame} {post : α → Prop} (ht : Typed frames)
    (hw : WellLinked env.closures env.nextScope frames)
    (h : ∀ env₂, (repetition root program o n).Holds names x y { env with frames } env₂ post) :
    (repetition root program o n).Holds [] (Check.inFrames frames x) (Check.inFrames (frames.map (·.shift o)) y)
      env env₂ post := by
  refine Holds.inFrames (fun hr => ?_) (h _)
  refine ⟨⟨hr.1.with_frames hw ht, fun hforetold => (hr.2 hforetold).with_frames frames⟩,
    fun {_ env₁ env₁'} ha hr₁ => ?_, fun hbreaks => ⟨hbreaks.1, hbreaks.2.restore⟩, id, id, id⟩
  have hlinked := hr.1.frames.mono ha.closures ha.nextScope
  refine ⟨ha.restore, hr₁.1.with_frames hlinked hr.1.typed, fun hforetold => ?_⟩
  have hm := hr.2 fun site ty hs => hforetold site ty (ha.foretold site ty hs)
  rw [hm.frames]
  exact (hr₁.2 hforetold).with_frames env.frames

/-- The function of a closure that was found has, in the second run, the return type that it has once it has one. -/
theorem callee {id : Text} {i : Nat} (hn : Settles root program n) (hr : (repetition root program o n).related env env₂)
    (hi : env.lookupFun? id = some i) : (repetition root program o n).Callee env env₂ i := by
  obtain ⟨ho, hm⟩ := hr
  obtain ⟨c, hc, -⟩ := ho.exists_closure hi
  have hplace := (ho.closed i c hc).1
  have hshift : env.notes.Foretold n → env₂.closure (i + o.closures) = c.shift o :=
    fun hforetold => (hm hforetold).closure_eq hc
  refine ⟨fun hforetold => ?_, fun hret hany => ?_, fun hany {_ env₁ env₁'} ha hr₁ => ?_,
    fun {_ env₁ env₁'} ha hr₁ hforetold => ?_⟩
  · show (env₂.closure (i + o.closures)).function.signature.params = _
    rw [hshift hforetold, closure_eq hc]
    rfl
  · have hm := mirrors_of_awaited ⟨ho, hm⟩ hret
    show env₂.returnOf (env₂.closure (i + o.closures)) = .any
    rw [closure_eq hc] at hany
    rw [hm.closure_eq hc, hm.returnOf_eq, Notes.returnOf, hret]
    exact hany
  · rw [closure_eq hc] at hany ⊢
    have hret : env₁.returnOf c = env.returnOf c := hr₁.1.settled.returnOf_eq ha.foretold hplace hany
    have hne : env₁.returnOf c ≠ .any := hret ▸ hany
    refine ⟨hne, fun hforetold => ?_⟩
    have hm₁ := hr₁.2 hforetold
    show env₁'.returnOf (env₂.closure (i + o.closures)) = _
    rw [hshift fun site ty hs => hforetold site ty (ha.foretold site ty hs), hm₁.returnOf_eq]
    exact hn.returnOf_eq hm₁.foretold hplace hne
  · obtain ⟨c₁, hc₁, -⟩ := ha.closures i c hc
    show (env₁'.closure (i + o.closures)).progress = _
    rw [(hr₁.2 hforetold).closure_eq hc₁, closure_eq hc₁]
    rfl

end Repeats
end FrontEnd.Typing
