import FrontEnd.Proofs.Session
import FrontEnd.Proofs.Syntax.Hygiene
import FrontEnd.Proofs.Typing.Loops
import FrontEnd.Proofs.Typing.Registration

/-!
# Environments that differ in counting variables

* `Frame.Twin`, `Twins` : frames that are the same but for the counting variable, and stacks of such frames, which are
  the very same from some frame on outwards; inside of it all functions are hygienic;
* `Closure.Twin`, `Env.Twin` : closures and environments of such stacks; the notes on types do not matter;
* `Env.Twin.lookupVar?_eq`, `lookupFun?_eq`, … : looking for another name finds the same in both;
* `Env.Twin.declaringFrames?` : the frames of the declaration of a function that is found are the same, or they are
  twins and the function is hygienic;
* `Env.Twin.enter`, `bindVar?`, `setProgress`, `Registered.twin`, … : the operations on environments keep this;
* `Env.Twin.entered_enter`, `enter_entered` : the new frame of a counting loop is the twin of an empty one.
-/

namespace FrontEnd
open FrontEnd.Expr

/-! ## Stacks -/

/-- The same frame but for the counting variable. -/
structure Frame.Twin (f f' : Frame) : Prop where
  id : f.id = f'.id
  funs : f.funs = f'.funs
  vars : ∀ id, id ≠ countingVariable → f.vars.find? id = f'.vars.find? id

namespace Frame.Twin
variable {f f' : Frame}

theorem refl (f : Frame) : f.Twin f := ⟨rfl, rfl, fun _ _ => rfl⟩

theorem symm (h : f.Twin f') : f'.Twin f := ⟨h.id.symm, h.funs.symm, fun id hid => (h.vars id hid).symm⟩

theorem bound (f : Frame) (t : Ty) : Frame.Twin { f with vars := f.vars.insert countingVariable t } f := by
  refine ⟨rfl, rfl, fun id hid => ?_⟩
  rw [Dictionary.find?_insert, if_neg hid]

end Frame.Twin

/-- The same stack from some frame on outwards, and twins inside of it, whose functions are `own`. -/
inductive Twins (own : Nat → Prop) : List Frame → List Frame → Prop
  | same (fs : List Frame) : Twins own fs fs
  | cons {f f' : Frame} {fs fs' : List Frame} (h : f.Twin f') (hown : ∀ id i, f.funs.find? id = some i → own i)
    (hs : Twins own fs fs') : Twins own (f :: fs) (f' :: fs')

namespace Twins
variable {own own' : Nat → Prop} {fs fs' : List Frame} {id : Text}

theorem mono (h : Twins own fs fs') (hown : ∀ i, own i → own' i) : Twins own' fs fs' := by
  induction h with
  | same fs => exact .same fs
  | cons h hf _ ih => exact .cons h (fun id i hi => hown i (hf id i hi)) ih

theorem tail (h : Twins own fs fs') : Twins own fs.tail fs'.tail := by
  cases h with
  | same => exact .same _
  | cons _ _ hs => exact hs

theorem findSome?_vars (h : Twins own fs fs') (hid : id ≠ countingVariable) :
    fs.findSome? (·.vars.find? id) = fs'.findSome? (·.vars.find? id) := by
  induction h with
  | same => rfl
  | cons h _ _ ih => rw [List.findSome?_cons, List.findSome?_cons, h.vars id hid, ih]

theorem findSome?_funs (h : Twins own fs fs') (id : Text) :
    fs.findSome? (·.funs.find? id) = fs'.findSome? (·.funs.find? id) := by
  induction h with
  | same => rfl
  | cons h _ _ ih => rw [List.findSome?_cons, List.findSome?_cons, h.funs, ih]

theorem contains_head (h : Twins own fs fs') (hid : id ≠ countingVariable) :
    fs.head?.any (·.vars.contains id) = fs'.head?.any (·.vars.contains id) := by
  cases h with
  | same => rfl
  | cons h _ _ => simp [Dictionary.contains, h.vars id hid]

end Twins

/-! ## Environments -/

/-- The function of the closure at position `i` is hygienic. -/
def Env.HygienicAt (env : Env) (i : Nat) : Prop := ∃ c, env.closures[i]? = some c ∧ c.function.Hygienic

/-- A closure of the same function, which has captured the same frames or, if it is hygienic, twins of them. -/
structure Closure.Twin (own : Nat → Prop) (c c' : Closure) : Prop where
  function : c.function = c'.function
  site : c.site = c'.site
  progress : c.progress = c'.progress
  scope : c.scope = c'.scope
  captured : c.captured = c'.captured ∨ c.function.Hygienic ∧ Twins own c.captured c'.captured

/-- The same environment but for the counting variables of its frames and the types noted. If it is `exact`, the open
frames are the very same. -/
structure Env.Twin (exact : Prop) (env env' : Env) : Prop where
  frames : Twins env.HygienicAt env.frames env'.frames
  same : exact → env.frames = env'.frames
  size : env.closures.size = env'.closures.size
  closures : ∀ (i : Nat) (c : Closure), env.closures[i]? = some c →
    ∃ c', env'.closures[i]? = some c' ∧ c.Twin env.HygienicAt c'
  nextScope : env.nextScope = env'.nextScope
  returns : env.notes.returns = env'.notes.returns

namespace Env

/-- Closures keep their functions, and all that `Keeps` says. -/
structure Retains (env env' : Env) : Prop extends Keeps env env' where
  functions : ∀ (i : Nat) (c : Closure), env.closures[i]? = some c →
    ∃ c', env'.closures[i]? = some c' ∧ c'.function = c.function

namespace Retains
variable {env env' env'' : Env}

theorem of_closures_eq (h : env'.closures = env.closures) (hn : env.nextScope ≤ env'.nextScope) : Retains env env' :=
  ⟨⟨fun _ c hc => ⟨c, h ▸ hc, rfl⟩, hn⟩, fun _ c hc => ⟨c, h ▸ hc, rfl⟩⟩

theorem refl (env : Env) : Retains env env := of_closures_eq rfl (Nat.le_refl _)

theorem trans (h : Retains env env') (h' : Retains env' env'') : Retains env env'' := by
  refine ⟨h.toKeeps.trans h'.toKeeps, fun i c hc => ?_⟩
  obtain ⟨c', hc', hf⟩ := h.functions i c hc
  obtain ⟨c'', hc'', hf'⟩ := h'.functions i c' hc'
  exact ⟨c'', hc'', hf'.trans hf⟩

theorem setProgress (env : Env) (i : Nat) (progress : Progress) : Retains env (env.setProgress i progress) := by
  have hkept : ∀ (j : Nat) (c : Closure), env.closures[j]? = some c →
      ∃ progress', (env.setProgress i progress).closures[j]? = some { c with progress := progress' } :=
    (extends_setProgress env i progress).closures
  refine ⟨⟨fun j c hc => ?_, Nat.le_refl _⟩, fun j c hc => ?_⟩
  · obtain ⟨progress', hc'⟩ := hkept j c hc
    exact ⟨_, hc', rfl⟩
  · obtain ⟨progress', hc'⟩ := hkept j c hc
    exact ⟨_, hc', rfl⟩

theorem leave (h : Retains env env') : Retains env env'.leave := ⟨⟨h.closures, h.nextScope⟩, h.functions⟩

theorem hygienicAt (h : Retains env env') {i : Nat} (hi : env.HygienicAt i) : env'.HygienicAt i := by
  obtain ⟨c, hc, hf⟩ := hi
  obtain ⟨c', hc', heq⟩ := h.functions i c hc
  exact ⟨c', hc', heq ▸ hf⟩

end Retains

namespace Sound
variable {env : Env}

theorem noted (h : env.Sound) {p : Path} {t : Ty} : (env.noted p t).Sound := ⟨h.frames, h.captured⟩

theorem entered (h : env.Sound) (var : Text) (t : Ty) : (env.entered var t).Sound := by
  refine h.enter.with_frames (h.enter.frames.replace rfl fun id i hi => ?_)
  cases hi

end Sound

namespace Twin
variable {exact exact' : Prop} {env env' : Env}

theorem refl (env : Env) : env.Twin exact env :=
  ⟨.same _, fun _ => rfl, rfl, fun _ c hc => ⟨c, hc, rfl, rfl, rfl, rfl, .inl rfl⟩, rfl, rfl⟩

theorem noted_left {p : Path} {t : Ty} : (env.noted p t).Twin exact env' ↔ env.Twin exact env' :=
  ⟨fun h => ⟨h.frames, h.same, h.size, h.closures, h.nextScope, h.returns⟩,
    fun h => ⟨h.frames, h.same, h.size, h.closures, h.nextScope, h.returns⟩⟩

theorem noted_right {p : Path} {t : Ty} : env.Twin exact (env'.noted p t) ↔ env.Twin exact env' :=
  ⟨fun h => ⟨h.frames, h.same, h.size, h.closures, h.nextScope, h.returns⟩,
    fun h => ⟨h.frames, h.same, h.size, h.closures, h.nextScope, h.returns⟩⟩

/-! ### Look-ups -/

theorem lookupVar?_eq (h : env.Twin exact env') {id : Text} (hid : exact ∨ id ≠ countingVariable) :
    env.lookupVar? id = env'.lookupVar? id := by
  rcases hid with hexact | hid
  · rw [lookupVar?, lookupVar?, h.same hexact]
  · exact h.frames.findSome?_vars hid

theorem hasVar_eq (h : env.Twin exact env') {id : Text} (hid : exact ∨ id ≠ countingVariable) :
    env.hasVar id = env'.hasVar id := by
  rcases hid with hexact | hid
  · rw [hasVar, hasVar, h.same hexact]
  · exact h.frames.contains_head hid

theorem lookupFun?_eq (h : env.Twin exact env') (id : Text) : env.lookupFun? id = env'.lookupFun? id :=
  h.frames.findSome?_funs id

theorem returnOf_eq (h : env.Twin exact env') {c c' : Closure} {own : Nat → Prop} (hc : c.Twin own c') :
    env.returnOf c = env'.returnOf c' := by
  rw [returnOf, returnOf, Notes.returnOf, Notes.returnOf, h.returns, hc.site, hc.function]

/-- What a function that is found is checked in when it is called: the same frames in both environments, or twins if the
function is hygienic. -/
theorem declaringFrames? (h : env.Twin exact env') (hs : env.Sound) {id : Text} {i : Nat} {c : Closure}
    (hi : env.lookupFun? id = some i) (hc : env.closures[i]? = some c) : ∃ frames frames',
      env.declaringFrames? c.scope = some frames ∧ env'.declaringFrames? c.scope = some frames' ∧
        (frames = frames' ∨ c.function.Hygienic ∧ Twins env.HygienicAt frames frames') := by
  have hw := hs.frames
  have hframes := h.frames
  unfold Env.declaringFrames?
  rw [lookupFun?] at hi
  generalize env.frames = fs at hw hframes hi ⊢
  generalize env'.frames = fs' at hframes ⊢
  induction hframes with
  | same fs =>
    obtain ⟨inner, f, outer, rfl, hf, -⟩ := List.findSome?_eq_some_iff.1 hi
    obtain ⟨c', hc', hscope⟩ := hw.registered f (by simp) id i hf
    cases hc.symm.trans hc'
    rw [hscope, dropWhile_id_ne hw.decreasing (List.suffix_append _ _)]
    exact ⟨_, _, rfl, rfl, .inl rfl⟩
  | @cons f f' fs fs' htwin hown hrest ih =>
    rw [List.findSome?_cons] at hi
    cases hf : f.funs.find? id with
    | some j =>
      rw [hf] at hi
      cases hi
      obtain ⟨c', hc', hscope⟩ := hw.registered f List.mem_cons_self id i hf
      cases hc.symm.trans hc'
      obtain ⟨c', hc', hhygienic⟩ := hown id i hf
      cases hc.symm.trans hc'
      have hid : (f'.id != c.scope) = false := by simp [hscope, htwin.id]
      rw [List.dropWhile_cons_of_neg (by simp [hscope]), List.dropWhile_cons_of_neg (by simp [hid])]
      exact ⟨_, _, rfl, rfl, .inr ⟨hhygienic, .cons ⟨htwin.id, htwin.funs, fun _ _ => rfl⟩ hown hrest⟩⟩
    | none =>
      rw [hf] at hi
      -- the function is one of an outer frame, whose number is less
      have hne : f.id ≠ c.scope := by
        obtain ⟨inner, g, outer, rfl, hg, -⟩ := List.findSome?_eq_some_iff.1 hi
        obtain ⟨c', hc', hscope⟩ := hw.registered g (by simp) id i hg
        cases hc.symm.trans hc'
        have hlt : g.id < f.id := (List.pairwise_cons.1 hw.decreasing).1 g.id (by simp)
        omega
      rw [List.dropWhile_cons_of_pos (by simpa using hne), List.dropWhile_cons_of_pos (by simpa [← htwin.id] using hne)]
      exact ih (hw.of_suffix (List.suffix_cons _ _)) hi

/-! ### Operations -/

/-- Other frames in both environments, which may have other closures by now. -/
theorem with_frames (h : env.Twin exact env') {frames frames' : List Frame} (hsame : exact' → frames = frames')
    (ht : Twins env.HygienicAt frames frames') : Env.Twin exact' { env with frames } { env' with frames := frames' } :=
  ⟨ht, hsame, h.size, h.closures, h.nextScope, h.returns⟩

/-- Other notes, with the same return types. -/
theorem with_notes (h : env.Twin exact env') {notes notes' : Notes} (hr : notes.returns = notes'.returns) :
    Env.Twin exact { env with notes } { env' with notes := notes' } :=
  ⟨h.frames, h.same, h.size, h.closures, h.nextScope, hr⟩

theorem enter (h : env.Twin exact env') : env.enter.Twin exact env'.enter := by
  have hframe : ({ id := env.nextScope } : Frame) = { id := env'.nextScope } := by rw [h.nextScope]
  refine ⟨?_, fun hexact => ?_, h.size, h.closures, congrArg (· + 1) h.nextScope, h.returns⟩
  · refine .cons (hframe ▸ Frame.Twin.refl _) (fun id i hi => ?_) h.frames
    cases hi
  · exact congrArg₂ List.cons hframe (h.same hexact)

theorem noted (h : env.Twin exact env') {p q : Path} {t u : Ty} : (env.noted p t).Twin exact (env'.noted q u) :=
  noted_left.2 (noted_right.2 h)

theorem entered (h : env.Twin exact env') (var : Text) (t : Ty) :
    (env.entered var t).Twin exact (env'.entered var t) := by
  have hframe : ({ id := env.nextScope, vars := (∅ : Dictionary Ty).insert var t } : Frame) =
      { id := env'.nextScope, vars := (∅ : Dictionary Ty).insert var t } := by rw [h.nextScope]
  refine h.enter.with_frames (fun hexact => congrArg₂ List.cons hframe (h.same hexact)) ?_
  refine .cons (hframe ▸ Frame.Twin.refl _) (fun id i hi => ?_) h.frames
  cases hi

/-- A new frame in which only the counting variable is bound, beside an empty one. -/
theorem entered_enter (env : Env) (t : Ty) : (env.entered countingVariable t).Twin False env.enter := by
  have hself : env.enter.Twin True env.enter := refl _
  have hframe := Frame.Twin.bound { id := env.nextScope } t
  exact hself.with_frames False.elim (.cons hframe (fun _ _ hi => nomatch hi) (.same _))

theorem enter_entered (env : Env) (t : Ty) : env.enter.Twin False (env.entered countingVariable t) := by
  have hself : env.enter.Twin True env.enter := refl _
  have hframe := Frame.Twin.bound { id := env.nextScope } t
  exact hself.with_frames False.elim (.cons hframe.symm (fun _ _ hi => nomatch hi) (.same _))

theorem leave (h : env.Twin exact env') : env.leave.Twin exact env'.leave :=
  h.with_frames (fun hexact => congrArg List.tail (h.same hexact)) h.frames.tail

theorem bindVar? (h : env.Twin exact env') {id : Text} {t : Ty} {env₁ : Env} (hb : env.bindVar? id t = some env₁) :
    ∃ env₁', env'.bindVar? id t = some env₁' ∧ env₁.Twin exact env₁' := by
  unfold Env.bindVar? modifyInnermost? at hb ⊢
  have hframes := h.frames
  split at hb
  · cases hb
  · next f fs hf =>
    cases hb
    rw [hf] at hframes
    cases hf' : env'.frames with
    | nil =>
      rw [hf'] at hframes
      cases hframes
    | cons f' fs' =>
      rw [hf'] at hframes
      refine ⟨_, rfl, h.with_frames (fun hexact => ?_) ?_⟩
      · have heq := h.same hexact
        rw [hf, hf'] at heq
        obtain ⟨rfl, rfl⟩ := List.cons.inj heq
        rfl
      · cases hframes with
        | same => exact .same _
        | cons htwin hown hrest =>
          refine .cons ⟨htwin.id, htwin.funs, fun id' hid' => ?_⟩ hown hrest
          rw [Dictionary.find?_insert, Dictionary.find?_insert, htwin.vars id' hid']

theorem setProgress (h : env.Twin exact env') (i : Nat) (progress : Progress) :
    (env.setProgress i progress).Twin exact (env'.setProgress i progress) := by
  have hown : ∀ j, env.HygienicAt j → (env.setProgress i progress).HygienicAt j :=
    fun j => (Retains.setProgress env i progress).hygienicAt
  refine ⟨h.frames.mono hown, h.same, ?_, fun j c hc => ?_, h.nextScope, h.returns⟩
  · simp only [Env.setProgress, Array.size_modify, h.size]
  · have hold : ∃ c₀, env.closures[j]? = some c₀ ∧ c = if i = j then { c₀ with progress } else c₀ := by
      rw [getElem?_setProgress] at hc
      split at hc
      · next hij =>
        obtain ⟨c₀, hc₀, rfl⟩ := Option.map_eq_some_iff.1 hc
        exact ⟨c₀, hc₀, by rw [if_pos hij]⟩
      · next hij => exact ⟨c, hc, by rw [if_neg hij]⟩
    obtain ⟨c₀, hc₀, rfl⟩ := hold
    obtain ⟨c', hc', htwin⟩ := h.closures j c₀ hc₀
    have hcaptured := htwin.captured.imp_right fun ⟨hf, ht⟩ => And.intro hf (ht.mono hown)
    refine ⟨if i = j then { c' with progress } else c', ?_, ?_⟩
    · rw [getElem?_setProgress, hc']
      split <;> rfl
    · split
      · exact ⟨htwin.function, htwin.site, rfl, htwin.scope, hcaptured⟩
      · exact ⟨htwin.function, htwin.site, htwin.progress, htwin.scope, hcaptured⟩

end Twin
end Env

/-! ## Blocks -/

namespace Typing
open Check Env

namespace Registered
variable {p : Path} {env env₁ env' env₁' : Env} {done functions : List Function} {funs funs' : Dictionary Nat}
variable {shows : Dictionary Nat → Prop}

theorem hasFun_iff (h : Registered p env done funs shows env₁) (id : Text) :
    env₁.hasFun id ↔ ∃ f ∈ done, f.signature.name = id := by
  have hfind : env₁.hasFun id ↔ ∃ j, funs.find? id = some j := by
    rw [hasFun, h.frames]
    simp [Dictionary.contains, Option.isSome_iff_exists]
  rw [hfind]
  constructor
  · rintro ⟨j, hj⟩
    obtain ⟨k, f, hk, hname, -⟩ := (h.names id j).1 hj
    exact ⟨f, List.mem_of_getElem? hk, hname⟩
  · rintro ⟨f, hf, hname⟩
    obtain ⟨k, hk⟩ := List.mem_iff_getElem?.1 hf
    exact ⟨_, (h.names id _).2 ⟨k, f, hk, hname, rfl⟩⟩

/-- Whether functions can be registered depends on their names only. -/
theorem registerAll_ok (h : Registered p env done funs (fun _ => True) env₁)
    (h' : Registered p env' done funs' (fun _ => True) env₁') {env₂ : Env}
    (hrun : Typing.registerAll p done.length functions env₁ = .ok () env₂) :
    ∃ env₂', Typing.registerAll p done.length functions env₁' = .ok () env₂' := by
  induction functions generalizing done funs funs' env₁ env₁' with
  | nil => exact ⟨env₁', rfl⟩
  | cons f fs ih =>
    rw [registerAll_cons] at hrun ⊢
    cases hf : env₁.hasFun f.signature.name with
    | true =>
      rw [hf] at hrun
      cases hrun
    | false =>
      have hf' : env₁'.hasFun f.signature.name = false := by
        rw [← Bool.not_eq_true, h'.hasFun_iff, ← h.hasFun_iff, Bool.not_eq_true, hf]
      obtain ⟨env₃, hreg, -, h₃⟩ := h.register hf
      obtain ⟨env₃', hreg', -, h₃'⟩ := h'.register hf'
      rw [hf, hreg] at hrun
      rw [hf', hreg']
      have hnext := ih h₃ h₃'
      rw [List.length_append, List.length_singleton] at hnext
      exact hnext hrun

theorem retains (h : Registered p env done funs shows env₁) : Retains env env₁ := by
  have hold : ∀ (i : Nat) (c : Closure), env.closures[i]? = some c → env₁.closures[i]? = some c :=
    fun i c hc => (h.before i (Array.getElem?_eq_some_iff.1 hc).1).trans hc
  exact ⟨⟨fun i c hc => ⟨c, hold i c hc, rfl⟩, h.nextScope ▸ Nat.le_succ _⟩, fun i c hc => ⟨c, hold i c hc, rfl⟩⟩

/-- The functions that a block registers are well linked. -/
theorem sound (h : Registered p env functions funs (· = funs) env₁) (hs : env.Sound) : env₁.Sound := by
  have hcase : ∀ id j, funs.find? id = some j → ∃ c, env₁.closures[j]? = some c ∧ c.scope = env.nextScope := by
    intro id j hj
    obtain ⟨k, f, hk, -, rfl⟩ := (h.names id j).1 hj
    obtain ⟨seen, -, hc⟩ := h.after k f hk
    exact ⟨_, hc, rfl⟩
  have hnew : WellLinked env₁.closures env₁.nextScope ({ id := env.nextScope, funs } :: env.frames) := by
    rw [h.nextScope]
    exact (hs.frames.mono h.retains.closures (Nat.le_refl _)).cons_new.replace rfl hcase
  refine ⟨h.frames ▸ hnew, fun i c hc => ?_⟩
  rcases h.old_or_new hc with hc | ⟨k, f, seen, -, -, rfl, rfl⟩
  · obtain ⟨hw, hhead⟩ := hs.captured i c hc
    exact ⟨hw.mono h.retains.closures h.retains.nextScope, hhead⟩
  · exact ⟨hnew, rfl⟩

/-- Blocks of hygienic functions keep twins. -/
theorem twin {exact : Prop} (h : Registered p env functions funs (· = funs) env₁)
    (h' : Registered p env' functions funs' (· = funs') env₁') (ht : env.Twin exact env')
    (hf : exact ∨ ∀ f ∈ functions, f.Hygienic) : env₁.Twin exact env₁' := by
  obtain rfl : funs = funs' := by
    refine Dictionary.eq_of_find?_eq fun id => Option.ext fun j => ?_
    rw [h.names, h'.names, ht.size]
  have hown : ∀ i, env.HygienicAt i → env₁.HygienicAt i := fun i => h.retains.hygienicAt
  have hframe : ({ id := env.nextScope, funs } : Frame) = { id := env'.nextScope, funs } := by rw [ht.nextScope]
  have hsame : exact → ({ id := env.nextScope, funs } : Frame) :: env.frames =
      { id := env'.nextScope, funs } :: env'.frames := fun hexact => congrArg₂ List.cons hframe (ht.same hexact)
  have htwins : (∀ f ∈ functions, f.Hygienic) → Twins env₁.HygienicAt
      ({ id := env.nextScope, funs } :: env.frames) ({ id := env'.nextScope, funs } :: env'.frames) := by
    intro hf
    refine .cons (hframe ▸ Frame.Twin.refl _) (fun id j hj => ?_) (ht.frames.mono hown)
    obtain ⟨k, f, hk, -, rfl⟩ := (h.names id j).1 hj
    obtain ⟨seen, -, hc⟩ := h.after k f hk
    exact ⟨_, hc, hf f (List.mem_of_getElem? hk)⟩
  refine ⟨?_, fun hexact => ?_, ?_, fun i c hc => ?_, ?_, ?_⟩
  · rw [h.frames, h'.frames]
    rcases hf with hexact | hf
    · exact hsame hexact ▸ .same _
    · exact htwins hf
  · rw [h.frames, h'.frames]
    exact hsame hexact
  · rw [h.size, h'.size, ht.size]
  · rcases h.old_or_new hc with hc | ⟨k, f, seen, hk, rfl, rfl, rfl⟩
    · obtain ⟨c', hc', htwin⟩ := ht.closures i c hc
      have hi : i < env'.closures.size := (Array.getElem?_eq_some_iff.1 hc').1
      refine ⟨c', (h'.before i hi).trans hc', htwin.function, htwin.site, htwin.progress, htwin.scope, ?_⟩
      exact htwin.captured.imp_right fun ⟨hf, ht⟩ => ⟨hf, ht.mono hown⟩
    · obtain ⟨seen', rfl, hc'⟩ := h'.after k f hk
      rw [← ht.size] at hc'
      refine ⟨_, hc', rfl, rfl, rfl, ht.nextScope, ?_⟩
      rcases hf with hexact | hf
      · exact .inl (hsame hexact)
      · exact .inr ⟨hf f (List.mem_of_getElem? hk), htwins hf⟩
  · rw [h.nextScope, h'.nextScope, ht.nextScope]
  · rw [h.notes, h'.notes, ht.returns]

end Registered
end Typing
end FrontEnd
