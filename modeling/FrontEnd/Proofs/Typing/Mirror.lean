import FrontEnd.Proofs.Dictionary
import FrontEnd.Proofs.Scope
import Mathlib.Data.List.TakeWhile

/-!
# Environments of two runs

A program is checked twice, the second time with the return types that the first run has settled, and in an environment
in which closures may be registered and frame numbers given out already.

* `Offset` : how many closures and frame numbers the second run finds in use; `Frame.shift`, `Closure.shift` : what the
  frames and the closures of the first run are in the second one;
* `Mirrors` : an environment of the second run is that of the first run, shifted. It has the notes of the first run's
  end where the first run has not come to yet;
* `Mirrors.enter`, `Mirrors.bindVar?`, … : operations that are carried out in both keep this.
-/

namespace FrontEnd

/-- The numbers of closures and of frames in use when a run starts. -/
structure Offset where
  closures : Nat
  scopes : Nat

/-- The frame that stands for `f` in a run with this offset. -/
def Frame.shift (o : Offset) (f : Frame) : Frame :=
  { id := f.id + o.scopes, vars := f.vars, funs := f.funs.map (· + o.closures) }

/-- The closure that stands for `c` in a run with this offset. -/
def Closure.shift (o : Offset) (c : Closure) : Closure :=
  { c with captured := c.captured.map (·.shift o), scope := c.scope + o.scopes }

theorem Closure.shift_withSiblings (o : Offset) (c : Closure) (funs : Dictionary Nat) :
    (c.withSiblings funs).shift o = (c.shift o).withSiblings (funs.map (· + o.closures)) := by
  obtain ⟨_, _, _, _ | ⟨f, fs⟩, _⟩ := c <;> rfl

/-- Whether every return type that is settled in `n` is settled so in `n'`. -/
def Notes.Foretold (n n' : Notes) : Prop :=
  ∀ (site : Path) (ty : Ty), n.returns[site]? = some ty → n'.returns[site]? = some ty

/-- Whether `n'` has the types of `n`, and those of `final` for other nodes, and the return types of `final`. -/
structure Notes.Mirrors (final n n' : Notes) : Prop where
  types : ∀ p, n'.typeAt? p = (n.typeAt? p).or (final.typeAt? p)
  returns : ∀ site : Path, n'.returns[site]? = final.returns[site]?

/-- Whether two notes have the same types and the same return types. -/
structure Notes.Same (n n' : Notes) : Prop where
  types : ∀ p, n.typeAt? p = n'.typeAt? p
  returns : ∀ site : Path, n.returns[site]? = n'.returns[site]?

/-- At the end of the first run its notes are those of the second run. -/
theorem Notes.Mirrors.same {n n' : Notes} (h : n.Mirrors n n') : n'.Same n :=
  ⟨fun p => (h.types p).trans Option.or_self, h.returns⟩

structure Env.Mirrors (o : Offset) (final : Notes) (env env' : Env) : Prop where
  frames : env'.frames = env.frames.map (·.shift o)
  size : env'.closures.size = env.closures.size + o.closures
  closures : ∀ i : Nat, env'.closures[i + o.closures]? = env.closures[i]?.map (·.shift o)
  nextScope : env'.nextScope = env.nextScope + o.scopes
  notes : final.Mirrors env.notes env'.notes
  foretold : env.notes.Foretold final

namespace Env.Mirrors
variable {o : Offset} {final : Notes} {env env' : Env} {id : Text}

/-! ## Look-ups -/

theorem lookupVar?_eq (h : Mirrors o final env env') (id : Text) : env'.lookupVar? id = env.lookupVar? id := by
  rw [lookupVar?, h.frames, List.findSome?_map]
  rfl

theorem hasVar_eq (h : Mirrors o final env env') (id : Text) : env'.hasVar id = env.hasVar id := by
  rw [hasVar, h.frames, hasVar]
  cases env.frames <;> rfl

theorem hasFun_eq (h : Mirrors o final env env') (id : Text) : env'.hasFun id = env.hasFun id := by
  rw [hasFun, h.frames, hasFun]
  cases env.frames with
  | nil => rfl
  | cons f fs => exact Dictionary.contains_map _ _ _

theorem lookupFun?_eq (h : Mirrors o final env env') (id : Text) :
    env'.lookupFun? id = (env.lookupFun? id).map (· + o.closures) := by
  rw [lookupFun?, h.frames, lookupFun?]
  induction env.frames with
  | nil => rfl
  | cons f fs ih =>
    rw [List.map_cons, List.findSome?_cons, List.findSome?_cons, Frame.shift, Dictionary.find?_map]
    cases f.funs.find? id with
    | none => exact ih
    | some i => rfl

theorem closure_eq (h : Mirrors o final env env') {i : Nat} {c : Closure} (hc : env.closures[i]? = some c) :
    env'.closure (i + o.closures) = c.shift o :=
  Env.closure_eq (by rw [h.closures, hc]; rfl)

theorem declaringFrames?_eq (h : Mirrors o final env env') (scope : Nat) :
    env'.declaringFrames? (scope + o.scopes) = (env.declaringFrames? scope).map (·.map (·.shift o)) := by
  have hnum : ((fun f : Frame => f.id != scope + o.scopes) ∘ fun f : Frame => f.shift o) = fun f => f.id != scope := by
    funext f
    simp [Frame.shift, bne, Nat.add_right_cancel_iff]
  rw [declaringFrames?, h.frames, List.dropWhile_map, hnum, declaringFrames?]
  cases env.frames.dropWhile fun f => f.id != scope <;> rfl

/-- The return type of a function in the second run is the one that the first run settles. -/
theorem returnOf_eq (h : Mirrors o final env env') (c : Closure) :
    env'.returnOf (c.shift o) = final.returnOf c.site c.function.signature := by
  rw [returnOf, Notes.returnOf, Notes.returnOf]
  exact congrArg (Option.getD · c.function.signature.ret) (h.notes.returns c.site)

/-! ## Operations -/

theorem with_frames (h : Mirrors o final env env') (frames : List Frame) :
    Mirrors o final { env with frames } { env' with frames := frames.map (·.shift o) } :=
  ⟨rfl, h.size, h.closures, h.nextScope, h.notes, h.foretold⟩

theorem enter (h : Mirrors o final env env') : Mirrors o final env.enter env'.enter := by
  refine ⟨?_, h.size, h.closures, ?_, h.notes, h.foretold⟩
  · show { id := env'.nextScope } :: env'.frames = _
    rw [h.frames, h.nextScope]
    rfl
  · show env'.nextScope + 1 = env.nextScope + 1 + o.scopes
    rw [h.nextScope]
    omega

theorem leave (h : Mirrors o final env env') : Mirrors o final env.leave env'.leave := by
  refine ⟨?_, h.size, h.closures, h.nextScope, h.notes, h.foretold⟩
  show env'.frames.tail = env.frames.tail.map _
  rw [h.frames, List.map_tail]

theorem bindVar? (h : Mirrors o final env env') (id : Text) (ty : Ty) :
    match env.bindVar? id ty with
    | none => env'.bindVar? id ty = none
    | some env₁ => ∃ env₁', env'.bindVar? id ty = some env₁' ∧ Mirrors o final env₁ env₁' := by
  have hframes := h.frames
  rw [Env.bindVar?, modifyInnermost?, Env.bindVar?, modifyInnermost?]
  cases hf : env.frames with
  | nil =>
    rw [hf] at hframes
    rw [hframes]
    rfl
  | cons f fs =>
    rw [hf] at hframes
    rw [hframes]
    exact ⟨_, rfl, h.with_frames ({ f with vars := f.vars.insert id ty } :: fs)⟩

theorem register? (h : Mirrors o final env env') (id : Text) (function : Function) (site : Path) :
    match env.register? id function site with
    | none => env'.register? id function site = none
    | some env₁ => ∃ env₁', env'.register? id function site = some env₁' ∧ Mirrors o final env₁ env₁' := by
  have hframes := h.frames
  rw [Env.register?, Env.register?]
  cases hf : env.frames with
  | nil =>
    rw [hf] at hframes
    rw [hframes]
    rfl
  | cons f fs =>
    rw [hf] at hframes
    rw [hframes]
    refine ⟨_, rfl, ?_, ?_, fun i => ?_, h.nextScope, h.notes, h.foretold⟩
    · have hinsert := Dictionary.map_insert (· + o.closures) f.funs id env.closures.size
      rw [← h.size] at hinsert
      exact congrArg (fun funs => ({ f.shift o with funs } : Frame) :: fs.map (·.shift o)) hinsert.symm
    · rw [Array.size_push, Array.size_push, h.size]
      omega
    · rw [Array.getElem?_push, Array.getElem?_push, h.size]
      by_cases hi : i = env.closures.size
      · rw [if_pos (by omega), if_pos hi]
        rfl
      · rw [if_neg (by omega), if_neg hi, h.closures]

theorem linkSiblings? (h : Mirrors o final env env') :
    match env.linkSiblings? with
    | none => env'.linkSiblings? = none
    | some env₁ => ∃ env₁', env'.linkSiblings? = some env₁' ∧ Mirrors o final env₁ env₁' := by
  have hframes := h.frames
  cases hf : env.frames with
  | nil =>
    rw [hf] at hframes
    rw [Env.linkSiblings?, hf, Env.linkSiblings?, hframes]
    rfl
  | cons f fs =>
    rw [hf, List.map_cons] at hframes
    obtain ⟨store, hlink, hsize, hstore⟩ := linkSiblings?_eq hf
    obtain ⟨store', hlink', hsize', hstore'⟩ := linkSiblings?_eq hframes
    have hmem : ∀ i, i + o.closures ∈ (f.shift o).funs.toList.map (·.2) ↔ i ∈ f.funs.toList.map (·.2) := by
      intro i
      simp [Frame.shift, Dictionary.map]
    rw [hlink]
    refine ⟨_, hlink', h.frames, ?_, fun i => ?_, h.nextScope, h.notes, h.foretold⟩
    · rw [hsize', hsize, h.size]
    · rw [hstore', hstore]
      simp only [hmem, h.closures]
      split
      · rw [Option.map_map, Option.map_map]
        congr 1
        funext c
        exact (c.shift_withSiblings o f.funs).symm
      · rfl

theorem setProgress (h : Mirrors o final env env') (i : Nat) (progress : Progress) :
    Mirrors o final (env.setProgress i progress) (env'.setProgress (i + o.closures) progress) := by
  refine ⟨h.frames, ?_, fun j => ?_, h.nextScope, h.notes, h.foretold⟩
  · show (env'.closures.modify _ _).size = (env.closures.modify _ _).size + _
    rw [Array.size_modify, Array.size_modify, h.size]
  · rw [getElem?_setProgress, getElem?_setProgress, h.closures]
    by_cases hij : i = j
    · rw [if_pos (by omega), if_pos hij, Option.map_map, Option.map_map]
      rfl
    · rw [if_neg (by omega), if_neg hij]

theorem setType (h : Mirrors o final env env') (p : Path) (ty : Ty) :
    Mirrors o final { env with notes := env.notes.setType p ty } { env' with notes := env'.notes.setType p ty } := by
  refine ⟨h.frames, h.size, h.closures, h.nextScope, ⟨fun q => ?_, h.notes.returns⟩, h.foretold⟩
  rw [Notes.typeAt?_setType, Notes.typeAt?_setType, h.notes.types]
  split <;> rfl

end Env.Mirrors
end FrontEnd
