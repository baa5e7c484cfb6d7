import FrontEnd.Proofs.Dictionary
import FrontEnd.Proofs.Scope
import FrontEnd.Proofs.Typing.Comparison

/-!
# Frames throughout a check

A check writes to the innermost open frame only, and there it adds variables only.

* `Frame.Gains`, `Adds` : the same frames with more variables in the innermost one;
* `Binds` : a step that comes to an end has bound just some names, and one that fails some of them; `binding` : this is
  a comparison of the step with itself;
* `confining` : a step keeps all frames but the innermost one, however it ends; `Binds.inNewFrame` : in a frame of its
  own it keeps all;
* `Binds.rule`, `walker_binds` : what a check binds is what its tree does;
* `typeOf_frames` : so all frames outlive every check, and blocks and loops with a variable leave nothing in them;
* `typeOf_loop_frames` : what a loop leaves there when it checks.
-/

namespace FrontEnd

/-! ## Frames with more variables -/

/-- `f'` is `f` with the variables `names` besides those it had, which are others. -/
structure Frame.Gains (names : List Text) (f f' : Frame) : Prop where
  id : f'.id = f.id
  funs : f'.funs = f.funs
  types : ∀ id t, f.vars.find? id = some t → f'.vars.find? id = some t
  contains : ∀ id, f'.vars.contains id ↔ f.vars.contains id ∨ id ∈ names
  fresh : ∀ id ∈ names, f.vars.contains id = false

namespace Frame.Gains
variable {f f' f'' : Frame} {names more : List Text}

theorem refl (f : Frame) : f.Gains [] f :=
  ⟨rfl, rfl, fun _ _ h => h, by simp, by simp⟩

theorem trans (h : f.Gains names f') (h' : f'.Gains more f'') : f.Gains (names ++ more) f'' := by
  refine ⟨h'.id.trans h.id, h'.funs.trans h.funs, fun id t ht => h'.types id t (h.types id t ht), fun id => ?_,
    fun id hid => ?_⟩
  · rw [h'.contains, h.contains, List.mem_append, or_assoc]
  · rcases List.mem_append.1 hid with hid | hid
    · exact h.fresh id hid
    · have hfree := h'.fresh id hid
      rw [← Bool.not_eq_true] at hfree ⊢
      exact fun hc => hfree ((h.contains id).2 (.inl hc))

/-- One more variable, which was free before. -/
theorem bindVar {id : Text} (h : f.Gains names f') (hfree : f.vars.contains id = false) (t : Ty) :
    f.Gains (names ++ [id]) { f' with vars := f'.vars.insert id t } := by
  refine ⟨h.id, h.funs, fun id' t' ht' => ?_, fun id' => ?_, fun id' hid' => ?_⟩
  · have hne : id' ≠ id := by
      rintro rfl
      simp [Dictionary.contains, ht'] at hfree
    rw [Dictionary.find?_insert, if_neg hne]
    exact h.types id' t' ht'
  · have hcontains : (f'.vars.insert id t).contains id' ↔ f'.vars.contains id' ∨ id' = id := by
      rw [Dictionary.contains, Dictionary.contains, Dictionary.find?_insert]
      by_cases hid : id' = id <;> simp [hid]
    rw [hcontains, h.contains, List.mem_append, List.mem_singleton, or_assoc]
  · rcases List.mem_append.1 hid' with hid' | hid'
    · exact h.fresh id' hid'
    · exact List.mem_singleton.1 hid' ▸ hfree

theorem eq_of_nil (h : f.Gains [] f') : f' = f := by
  have hvars : f'.vars = f.vars := by
    refine Dictionary.eq_of_find?_eq fun id => ?_
    cases hid : f.vars.find? id with
    | some t => exact h.types id t hid
    | none =>
      have hnone : ¬ f'.vars.contains id := by
        rw [h.contains]
        simp [Dictionary.contains, hid]
      simpa [Dictionary.contains] using hnone
  obtain ⟨id', vars', funs'⟩ := f'
  obtain rfl : id' = f.id := h.id
  obtain rfl : vars' = f.vars := hvars
  obtain rfl : funs' = f.funs := h.funs
  rfl

/-- A frame stays as it is just if it gains nothing, since what it gains is new. -/
theorem eq_iff (h : f.Gains names f') : f' = f ↔ names = [] := by
  refine ⟨?_, fun hnone => eq_of_nil (hnone ▸ h)⟩
  rintro rfl
  refine List.eq_nil_iff_forall_not_mem.2 fun id hid => ?_
  have hcontains := (h.contains id).2 (.inr hid)
  rw [h.fresh id hid] at hcontains
  cases hcontains

end Frame.Gains

namespace Typing
open Check Env

/-- The environment in which a step ends, whether it fails or not. -/
def envAfter {α : Type} (x : Check α) (env : Env) : Env :=
  match x env with
  | .ok _ env' | .error _ env' => env'

section
variable {α : Type} {x : Check α} {env env' : Env}

theorem envAfter_of_ok {a : α} (h : x env = .ok a env') : envAfter x env = env' := by
  rw [envAfter, h]

theorem envAfter_of_error {fault : Fault} (h : x env = .error fault env') : envAfter x env = env' := by
  rw [envAfter, h]

theorem envAfter_bind_ok {β : Type} {f : α → Check β} {a : α} (h : x env = .ok a env') :
    envAfter (x >>= f) env = envAfter (f a) env' := by
  rw [envAfter, bind_apply, h]
  rfl

theorem envAfter_inNewFrame (x : Check α) (env : Env) :
    envAfter (inNewFrame x) env = (envAfter x env.enter).leave := by
  unfold envAfter inNewFrame
  cases x env.enter <;> rfl

theorem envAfter_inFrames (frames : List Frame) (x : Check α) (env : Env) :
    envAfter (inFrames frames x) env = { envAfter x { env with frames } with frames := env.frames } := by
  unfold envAfter inFrames
  cases x { env with frames } <;> rfl

theorem envAfter_watched (t : Trail) (step : Step) (inner : Trail → Check α) (env : Env) :
    envAfter (watched noMonitor t step inner) env = envAfter (inner (⟨step, env⟩ :: t)) env := by
  rw [envAfter, watched_noMonitor]
  rfl

end

/-- The frames are the same up to variables of the innermost one, which has gained `names`. -/
inductive Adds (env env' : Env) (names : List Text) : Prop
  | closed (h : env.frames = []) (h' : env'.frames = []) (hnone : names = [])
  | opened {f f' : Frame} {fs : List Frame} (h : env.frames = f :: fs) (h' : env'.frames = f' :: fs)
    (hgains : f.Gains names f')

namespace Adds
variable {env env' env'' : Env} {names more : List Text}

theorem of_frames_eq (h : env'.frames = env.frames) : Adds env env' [] := by
  cases hf : env.frames with
  | nil => exact .closed hf (h.trans hf) rfl
  | cons f fs => exact .opened hf (h.trans hf) (.refl f)

theorem trans (h : Adds env env' names) (h' : Adds env' env'' more) : Adds env env'' (names ++ more) := by
  cases h with
  | closed hf hf' hnone =>
    cases h' with
    | closed _ hf'' hnone' => exact .closed hf hf'' (by rw [hnone, hnone', List.append_nil])
    | opened hg _ _ => cases hf'.symm.trans hg
  | opened hf hf' hgains =>
    cases h' with
    | closed hg _ _ => cases hf'.symm.trans hg
    | opened hg hf'' hgains' =>
      obtain ⟨rfl, rfl⟩ := List.cons.inj (hf'.symm.trans hg)
      exact .opened hf hf'' (hgains.trans hgains')

theorem tail (h : Adds env env' names) : env'.frames.tail = env.frames.tail := by
  cases h with
  | closed hf hf' _ => rw [hf, hf']
  | opened hf hf' _ => rw [hf, hf']; rfl

theorem scope (h : Adds env env' names) : env'.currentScope? = env.currentScope? := by
  cases h with
  | closed hf hf' _ => rw [currentScope?, currentScope?, hf, hf']
  | opened hf hf' hgains =>
    rw [currentScope?, currentScope?, hf, hf']
    exact congrArg some hgains.id

theorem hasVar (h : Adds env env' names) (id : Text) : env'.hasVar id ↔ env.hasVar id ∨ id ∈ names := by
  cases h with
  | closed hf hf' hnone => simp [Env.hasVar, hf, hf', hnone]
  | opened hf hf' hgains => simpa [Env.hasVar, hf, hf'] using hgains.contains id

/-- The innermost frame in which a step has added variables. -/
theorem exists_gains {f : Frame} {fs : List Frame} (h : Adds env env' names) (hf : env.frames = f :: fs) :
    ∃ f', env'.frames = f' :: fs ∧ f.Gains names f' := by
  cases h with
  | closed hf' _ _ => cases hf.symm.trans hf'
  | opened hf' hframes hgains =>
    obtain ⟨rfl, rfl⟩ := List.cons.inj (hf.symm.trans hf')
    exact ⟨_, hframes, hgains⟩

end Adds

/-! ## Steps that bind variables -/

/-- If `x` comes to an end, it has bound `names` in the innermost frame; if it fails, some of them. -/
def Binds {α : Type} (x : Check α) (names : List Text) : Prop := ∀ env,
  match x env with
  | .ok _ env' => Adds env env' names
  | .error _ env' => ∃ bound, bound ⊆ names ∧ Adds env env' bound

structure Walker.Binds (w : Walker) : Prop where
  typeOf : ∀ p e, Typing.Binds (w.typeOf p e) e.bindings
  checkClosure : ∀ occasion i, Typing.Binds (w.checkClosure occasion i) []

/-- A run, by what it binds. -/
def binding : Comparison :=
  .alone (fun _ => True) (fun names env env' => Adds env env' names)
    fun names env env' => ∃ bound, bound ⊆ names ∧ Adds env env' bound

instance : binding.Lawful := Comparison.alone_lawful {
  refl := fun _ => .of_frames_eq rfl
  trans := Adds.trans
  breaks_refl := fun _ => ⟨[], List.Subset.refl _, .of_frames_eq rfl⟩
  breaks_append := fun _ ⟨bound, hbound, hadds⟩ => ⟨bound, List.subset_append_of_subset_left _ hbound, hadds⟩
  breaks_after := fun {names _ _ _ _} hfirst ⟨bound, hbound, hadds⟩ => by
    refine ⟨names ++ bound, fun id hid => ?_, hfirst.trans hadds⟩
    exact List.mem_append.2 ((List.mem_append.1 hid).imp_right fun hid => hbound hid)
  note := fun _ _ _ => ⟨trivial, .of_frames_eq rfl⟩
  enter := fun _ => trivial
  leave := fun _ hadds _ => ⟨.of_frames_eq hadds.tail, trivial⟩
  breaks_leave := fun ⟨_, _, hadds⟩ => ⟨[], List.Subset.refl _, .of_frames_eq hadds.tail⟩ }

namespace Binds
open Comparison
variable {α β : Type} {names more : List Text}

theorem iff_holds {x : Check α} : Binds x names ↔ ∀ env, binding.Holds names x x env env fun _ => True := by
  refine forall_congr' fun env => ?_
  unfold binding
  rw [holds_alone_iff]
  cases x env <;> simp

theorem of_ok {x : Check α} {env env' : Env} {a : α} (h : Binds x names) (hrun : x env = .ok a env') :
    Adds env env' names := by
  have hx := h env
  rwa [hrun] at hx

/-- However the step ends, it has bound some of the names. -/
theorem exists_adds {x : Check α} (h : Binds x names) (env : Env) :
    ∃ bound, bound ⊆ names ∧ Adds env (envAfter x env) bound := by
  have hx := h env
  unfold envAfter
  cases hrun : x env with
  | ok a env' =>
    rw [hrun] at hx
    exact ⟨names, List.Subset.refl _, hx⟩
  | error fault env' =>
    rw [hrun] at hx
    exact hx

/-- A step that keeps the frames, however it ends. -/
theorem of_frames_eq {x : Check α} (h : ∀ env, (envAfter x env).frames = env.frames) :
    binding.Holds [] x x env env' fun _ => True := by
  refine .of_self (·.2) (iff_holds.1 (fun env => ?_) env)
  have hx := Adds.of_frames_eq (h env)
  unfold envAfter at hx
  cases hrun : x env with
  | ok a env' =>
    rw [hrun] at hx
    exact hx
  | error fault env' =>
    rw [hrun] at hx
    exact ⟨[], List.Subset.refl _, hx⟩

theorem setProgress (i : Nat) (progress : Progress) :
    binding.Holds [] (Check.setProgress i progress) (Check.setProgress i progress) env env' fun _ => True :=
  of_frames_eq fun _ => rfl

theorem inFrames (frames : List Frame) (x : Check α) :
    binding.Holds [] (Check.inFrames frames x) (Check.inFrames frames x) env env' fun _ => True :=
  of_frames_eq fun env => by rw [envAfter_inFrames]

theorem bodyFrames (occasion : Occasion) (c : Closure) :
    binding.Holds [] (bodyFrames occasion c) (bodyFrames occasion c) env env' fun _ => True := by
  refine of_frames_eq fun env => ?_
  cases occasion with
  | call =>
    unfold envAfter
    rw [Typing.bodyFrames, declaringFrames_apply]
    cases env.declaringFrames? c.scope <;> rfl
  | declaration => rfl

end Binds

/-! ## Steps that keep outer frames -/

/-- A run, which keeps all frames but the innermost one, however it ends. -/
def confining : Comparison :=
  .alone (fun _ => True) (fun _ env env' => env'.frames.tail = env.frames.tail)
    fun _ env env' => env'.frames.tail = env.frames.tail

instance : confining.Lawful := Comparison.alone_lawful {
  refl := fun _ => rfl
  trans := fun h h' => h'.trans h
  breaks_refl := fun _ => rfl
  breaks_append := fun _ h => h
  breaks_after := fun h h' => h'.trans h
  note := fun _ _ _ => ⟨trivial, rfl⟩
  enter := fun _ => trivial
  leave := fun _ h _ => ⟨congrArg List.tail h, trivial⟩
  breaks_leave := fun h => congrArg List.tail h }

namespace Binds
open Comparison
variable {α : Type} {names : List Text} {env env' : Env}

theorem confined {x : Check α} (h : Binds x names) : confining.Holds names x x env env' fun _ => True := by
  refine .of_self (·.2) (holds_alone_iff.2 fun _ => ?_)
  have hx := h env
  cases hrun : x env with
  | ok a env₁ =>
    rw [hrun] at hx
    exact ⟨hx.tail, trivial, trivial⟩
  | error fault env₁ =>
    rw [hrun] at hx
    obtain ⟨bound, -, hadds⟩ := hx
    exact hadds.tail

theorem confined_changeOr {cause : InternalError} {f : Env → Option Env}
    (h : ∀ env env', f env = some env' → env'.frames.tail = env.frames.tail) :
    confining.Holds [] (changeOr cause f) (changeOr cause f) env env' fun _ => True :=
  .of_self (·.2) (.changeOr (fun _ hnone _ => hnone) fun env₁ _ hf =>
    ⟨h env env₁ hf, env₁, ⟨trivial, rfl⟩, fun _ => hf⟩)

theorem confined_register (id : Text) (f : Function) (site : Path) :
    confining.Holds [] (register id f site) (register id f site) env env' fun _ => True := by
  refine confined_changeOr fun env env' h => ?_
  obtain ⟨g, gs, hg, rfl⟩ := exists_of_register? h
  rw [hg]
  rfl

theorem confined_linkSiblings : confining.Holds [] linkSiblings linkSiblings env env' fun _ => True := by
  refine confined_changeOr fun env env' h => ?_
  unfold linkSiblings? at h
  split at h
  · cases h
  · cases h
    rfl

/-- A frame that is opened for a step is all that the step changes. -/
theorem inNewFrame {x : Check α} (h : confining.Holds names x x env.enter env.enter fun _ => True) :
    binding.Holds [] (Check.inNewFrame x) (Check.inNewFrame x) env env fun _ => True := by
  refine .within rfl rfl (fun _ => ?_) h
  refine within_alone trivial (fun h _ => ⟨.of_frames_eq h, trivial⟩) fun h => ?_
  exact ⟨[], List.Subset.refl _, .of_frames_eq h⟩

/-! ## Rules -/

theorem letRule_of_free {w : Walker} {p : Path} {loc : Location} {id : Text} {value : Expr} {env : Env}
    (h : env.hasVar id = false) : Typing.letRule w p loc id value env =
      (w.typeOf (0 :: p) value >>= fun t => bindVar id t >>= fun _ => Pure.pure Ty.unit) env := by
  rw [Typing.letRule, get_bind_apply, h]
  rfl

section
variable {w : Walker} (hw : w.Binds) {p : Path} {loc : Location}
include hw

theorem walks (es : List Expr) (i : Nat) (env : Env) : binding.Walks w w (fun _ _ => True) p i es es env :=
  .of_same fun _ part _ _ env₁ _ _ =>
    .of_self (·.2) ((iff_holds.1 (hw.typeOf _ part) env₁).weaken fun _ _ => ⟨trivial, trivial⟩)

theorem blockRule (functions : List Function) (statements : List Expr) :
    Binds (blockRule w p functions statements) [] := by
  have hregister : ∀ env, confining.Holds [] (registerAll p 0 functions) (registerAll p 0 functions) env env
      fun _ => True := by
    refine fun env => .registerAll ?_ ?_ fun _ _ _ hk hk' _ => ?_
    · exact List.forall₂_same.2 fun f _ => .of ⟨rfl, rfl, rfl, rfl⟩ (.refl (fun _ => rfl) f.body)
    · rintro env _ id ⟨-, rfl⟩ -
      rfl
    · obtain rfl := Option.some.inj (hk.symm.trans hk')
      exact confined_register _ _ _
  have hwalks : ∀ env, confining.Walks w w (fun _ _ => True) p functions.length statements statements env :=
    fun _ => .of_same fun _ part _ _ _ _ _ => (hw.typeOf _ part).confined.weaken fun _ _ => ⟨trivial, trivial⟩
  exact iff_holds.2 fun env => inNewFrame ((hregister env.enter).bind fun _ _ _ _ _ =>
    confined_linkSiblings.bind fun _ env₂ _ _ _ => (Holds.typeStatements rfl trivial (hwalks env₂)).ended)

theorem letRule (id : Text) (value : Expr) : Binds (letRule w p loc id value) (value.bindings ++ [id]) := by
  intro env
  cases hfree : env.hasVar id with
  | true =>
    rw [Typing.letRule, get_bind_apply, if_pos hfree]
    exact ⟨[], List.nil_subset _, .of_frames_eq rfl⟩
  | false =>
    have hvalue := hw.typeOf (0 :: p) value env
    rw [letRule_of_free hfree, bind_apply]
    cases hrun : w.typeOf (0 :: p) value env with
    | error fault env₁ =>
      rw [hrun] at hvalue
      obtain ⟨bound, hbound, hadds⟩ := hvalue
      exact ⟨bound, List.subset_append_of_subset_left _ hbound, hadds⟩
    | ok t env₁ =>
      rw [hrun] at hvalue
      dsimp only
      rw [bind_apply, Check.bindVar, changeOr_apply, bindVar?, modifyInnermost?]
      cases hvalue with
      | closed hf hf' hnone =>
        rw [hf']
        exact ⟨[], List.nil_subset _, .closed hf hf' rfl⟩
      | opened hf hf' hgains =>
        -- the name was free before the value was typed, whether or not the value has bound it
        have hvar : _ := hfree
        rw [hasVar, hf] at hvar
        rw [hf']
        exact .opened hf rfl (hgains.bindVar hvar t)

theorem rule (e : Expr) : Binds (rule w p e) e.bindings := by
  cases hscope : e.changesScope with
  | false =>
    refine iff_holds.2 fun env => (Holds.rule (.refl (fun _ => rfl) e) hscope ?_ ?_ (walks hw _ _ _)).ended
    · exact fun _ _ _ => trivial
    · exact fun _ _ _ => trivial
  | true =>
    cases e with
    | letIn loc id value => exact letRule hw id value
    | block loc functions statements => exact blockRule hw functions statements
    | call loc callee args =>
      refine iff_holds.2 fun env => (Holds.callRule rfl callee ?_ (walks hw _ _ _) ?_ ?_).ended
      · exact List.forall₂_same.2 fun arg _ => .refl (fun _ => rfl) arg
      · exact fun i hr _ => callee_alone hr
      · exact fun i _ _ env₁ _ _ => .of_self (·.2) (iff_holds.1 (hw.checkClosure .call i) env₁)
    | funDecl loc id =>
      exact iff_holds.2 fun env =>
        (Holds.declarationRule id fun i _ => iff_holds.1 (hw.checkClosure .declaration i) env).ended
    | _ => cases hscope

end

/-- Bodies are checked in frames of their own. -/
theorem bodyRule (w : Walker) (occasion : Occasion) (i : Nat) : Binds (bodyRule w occasion i) [] := by
  refine iff_holds.2 fun env => (setProgress i .checking).bind fun _ _ env₁ _ _ => .of_self (·.2) (.get ?_)
  exact (bodyFrames occasion _).bind fun frames _ _ _ _ =>
    (inFrames frames _).bind fun _ _ _ _ _ => setProgress i .checked

end Binds

theorem walker_binds (limit : Nat) : (walker limit).Binds := by
  induction limit with
  | zero =>
    have hstop : ∀ {α : Type} {names : List Text} env,
        binding.Holds names (throw (.internal .nestedTooDeeply) : Check α) (throw (.internal .nestedTooDeeply)) env env
          fun _ => True := fun _ => .stop _
    exact ⟨fun _ _ => Binds.iff_holds.2 hstop, fun _ _ => Binds.iff_holds.2 hstop⟩
  | succ limit ih =>
    refine ⟨fun p e => Binds.iff_holds.2 fun env => ?_, fun occasion i => Binds.bodyRule _ occasion i⟩
    exact (Binds.iff_holds.1 (Binds.rule ih e) env).noted

/-! ## Frames after a check -/

/-- However the check of a tree ends, the same frames are open with their numbers. All but the innermost one are what
they were, and that one has its functions, the variables it had and besides at most those that the tree binds. Loops
with a variable and blocks leave all frames as they were. -/
theorem typeOf_frames (limit : Nat) (p : Path) (e : Expr) {env : Env} {f : Frame} {fs : List Frame}
    (h : env.frames = f :: fs) :
    ∃ f' names, (envAfter (typeOf limit p e) env).frames = f' :: fs ∧ f.Gains names f' ∧ names ⊆ e.bindings ∧
      (e.opensFrame → f' = f) := by
  obtain ⟨names, hnames, hadds⟩ := ((walker_binds limit).typeOf p e).exists_adds env
  obtain ⟨f', hf', hgains⟩ := hadds.exists_gains h
  refine ⟨f', names, hf', hgains, hnames, fun hopens => hgains.eq_iff.2 ?_⟩
  rw [Expr.bindings_of_opensFrame hopens] at hnames
  exact List.subset_nil.1 hnames

/-- The program `if(true)let x=1 else y`. -/
def strayBinding : Expr :=
  .ifElse ⟨"a", 1, 1⟩ (.literal ⟨"a", 1, 4⟩ (.bool true)) (.letIn ⟨"a", 1, 9⟩ "x" (.literal ⟨"a", 1, 15⟩ (.int 1)))
    (.name ⟨"a", 1, 22⟩ "y")

/-- A check that fails leaves a binding behind in the frame that it started in. -/
theorem strayBinding_frames : ∃ f names env', ({} : Env).enter.frames = [{ id := 0 }] ∧
    typeOf 3 [0] strayBinding ({} : Env).enter = .error (.typing (.unknownVariable "y") ⟨"a", 1, 22⟩) env' ∧
    env'.frames = [f] ∧ Frame.Gains names { id := 0 } f ∧ names ⊆ ["x"] ∧ f.vars.find? "x" = some .int := by
  have hframes : ({} : Env).enter.frames = [{ id := 0 }] := rfl
  obtain ⟨f, names, hf, hgains, hnames, -⟩ := typeOf_frames 3 [0] strayBinding hframes
  refine ⟨f, names, _, hframes, rfl, hf, hgains, hnames, ?_⟩
  cases hf
  rfl

/-! ## Loops -/

/-- A loop with a variable that has been checked leaves all frames as they were. A loop without one binds, in the frame
around it, what its condition and its body bind: that frame stays as it was just if they bind nothing. -/
theorem typeOf_loop_frames {limit : Nat} {p : Path} {env env' : Env} {f : Frame} {fs : List Frame} {t : Ty}
    (h : env.frames = f :: fs) :
    (∀ loc varLoc var start test step body,
      typeOf limit p (.forLoop loc varLoc var start test step body) env = .ok t env' → env'.frames = env.frames) ∧
    ∀ loc test body, typeOf limit p (.whileLoop loc test body) env = .ok t env' →
      ∃ f', env'.frames = f' :: fs ∧ f.Gains (test.bindings ++ body.bindings) f' ∧
        (env'.frames = env.frames ↔ test.bindings ++ body.bindings = []) := by
  have hbinds : ∀ e, typeOf limit p e env = .ok t env' → ∃ f', env'.frames = f' :: fs ∧ f.Gains e.bindings f' :=
    fun e hrun => (((walker_binds limit).typeOf p e).of_ok hrun).exists_gains h
  refine ⟨fun loc varLoc var start test step body hrun => ?_, fun loc test body hrun => ?_⟩
  · obtain ⟨f', hf', hgains⟩ := hbinds _ hrun
    rw [hf', h, hgains.eq_of_nil]
  · obtain ⟨f', hf', hgains⟩ := hbinds _ hrun
    refine ⟨f', hf', hgains, ?_⟩
    rw [hf', h, List.cons.injEq, eq_self, and_true]
    exact hgains.eq_iff

/-- The loop `while(true)let x=1`. -/
def bindingLoop : Expr :=
  .whileLoop ⟨"a", 1, 1⟩ (.literal ⟨"a", 1, 7⟩ (.bool true))
    (.letIn ⟨"a", 1, 12⟩ "x" (.literal ⟨"a", 1, 18⟩ (.int 1)))

theorem bindingLoop_frames : ({} : Env).enter.frames = [{ id := 0 }] ∧ ∃ env' f,
    typeOf 3 [0, 0] bindingLoop ({} : Env).enter = .ok .unit env' ∧ env'.frames = [f] ∧
      Frame.Gains ["x"] { id := 0 } f ∧ env'.frames ≠ ({} : Env).enter.frames := by
  have hframes : ({} : Env).enter.frames = [{ id := 0 }] := rfl
  have hrun : ∃ env', typeOf 3 [0, 0] bindingLoop ({} : Env).enter = .ok .unit env' := ⟨_, rfl⟩
  obtain ⟨env', hrun⟩ := hrun
  obtain ⟨f, hf, hgains, hsame⟩ := (typeOf_loop_frames hframes).2 _ _ _ hrun
  exact ⟨hframes, env', f, hrun, hf, hgains, fun heq => absurd (hsame.1 heq) (by decide)⟩

/-- The program `while(true)let x=1;x`. -/
def leakingProgram : Expr := .block ⟨"a", 1, 1⟩ [] [bindingLoop, .name ⟨"a", 1, 20⟩ "x"]

/-- A binding in the body of a loop is there after the loop: the program is accepted and has the variable's type. -/
theorem bindingLoop_leaks : ∃ env',
    readProgram (.ofSources [⟨"while(true)let x=1;x", "a"⟩]) = .ok leakingProgram ∧
      (checkProgram leakingProgram).1 = .ok .int ∧
      typeOf 3 [0, 0] bindingLoop ({} : Env).enter = .ok .unit env' ∧
      ({} : Env).enter.lookupVar? "x" = none ∧ env'.lookupVar? "x" = some .int := by
  refine ⟨_, ?_, rfl, rfl, rfl, rfl⟩
  with_unfolding_all rfl

end Typing
end FrontEnd
