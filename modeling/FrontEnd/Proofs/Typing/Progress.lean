import FrontEnd.Proofs.Session
import FrontEnd.Proofs.Typing.Programs
import FrontEnd.Proofs.Typing.Registration
import FrontEnd.Proofs.Typing.Steps

/-!
# How far the bodies of functions have been checked

What has been noted about a function stays noted when the check that has noted it fails.

* `Closure.Moves` : how a closure's progress changes when the check of its body is begun, and completed;
* `Tracked`, `After`, `Tracks` : the closures of a session's earlier functions change only so, at the points that a step
  comes to; `Tracks.law`, `Tracks.walkBody`, `Tracks.blockRule` : how such steps are put together;
* `walker_tracks` : so do whole checks, in which declarations are of functions of their own block;
* `statedCall` : a call that is decided without the function's body;
* `failed_check_progress` : what becomes of the functions of a session when a check fails.
-/

namespace FrontEnd

/-- A closure when the check of its body has been begun, and perhaps completed. Both happen only to closures that have
not been looked at. -/
inductive Closure.Moves (begun completed : Prop) (c : Closure) : Closure → Prop
  | rests (hb : ¬ begun) (hc : ¬ completed) : Moves begun completed c c
  | stops (h : c.progress = .unchecked) (hb : begun) (hc : ¬ completed) :
    Moves begun completed c { c with progress := .checking }
  | finishes (h : c.progress = .unchecked) (hb : begun) (hc : completed) :
    Moves begun completed c { c with progress := .checked }

namespace Closure.Moves
variable {begun completed begun' completed' : Prop} {c c' c'' : Closure}

theorem trans (h : c.Moves begun completed c') (h' : c'.Moves begun' completed' c'') :
    c.Moves (begun ∨ begun') (completed ∨ completed') c'' := by
  cases h with
  | rests hb hc =>
    cases h' with
    | rests hb' hc' => exact .rests (not_or.2 ⟨hb, hb'⟩) (not_or.2 ⟨hc, hc'⟩)
    | stops h hb' hc' => exact .stops h (.inr hb') (not_or.2 ⟨hc, hc'⟩)
    | finishes h hb' hc' => exact .finishes h (.inr hb') (.inr hc')
  | stops h hb hc =>
    cases h' with
    | rests hb' hc' => exact .stops h (.inl hb) (not_or.2 ⟨hc, hc'⟩)
    | stops h' | finishes h' => cases h'
  | finishes h hb hc =>
    cases h' with
    | rests hb' hc' => exact .finishes h (.inl hb) (.inl hc)
    | stops h' | finishes h' => cases h'

theorem eq_checking_iff (h : c.Moves begun completed c') (hc : c.progress = .unchecked) :
    c'.progress = .checking ↔ begun ∧ ¬ completed := by
  cases h with
  | rests hb hcompleted => simp [hc, hb]
  | stops _ hb hcompleted => simp [hb, hcompleted]
  | finishes _ hb hcompleted => simp [hcompleted]

/-- Nothing more happens to a closure that has been looked at. -/
theorem of_ne_unchecked (h : c.Moves begun completed c') (hc : c.progress ≠ .unchecked) :
    c' = c ∧ ¬ begun ∧ ¬ completed := by
  cases h with
  | rests hb hcompleted => exact ⟨rfl, hb, hcompleted⟩
  | stops h | finishes h => exact absurd h hc

end Closure.Moves

/-- The functions of the session have well-formed bodies, as functions of programs that have been read do. -/
def Env.WellFormed (env : Env) : Prop :=
  ∀ (i : Nat) (c : Closure), env.closures[i]? = some c → c.function.body.WellFormed

namespace Typing
open FrontEnd.Expr Check Env

/-- The check is about to enter the body of the closure at position `i`. -/
def Point.EntersBody (point : Point) (i : Nat) : Prop :=
  ∃ occasion site, point.moment = .entering (.body occasion i site)

/-- The check has just left the body of the closure at position `i`. -/
def Point.LeavesBody (point : Point) (i : Nat) : Prop :=
  ∃ occasion site, point.moment = .leaving (.body occasion i site)

/-- An environment with `n` earlier functions. Bodies are well formed, so that the declarations in them are of other
functions. -/
structure Tracked (n : Nat) (env : Env) : Prop where
  size : n ≤ env.closures.size
  bodies : env.WellFormed

/-- The environment after a step that comes to `points`. -/
structure After (n : Nat) (points : List Point) (env env' : Env) : Prop where
  tracked : Tracked n env'
  moves : ∀ i < n, (env.closure i).Moves (∃ point ∈ points, point.EntersBody i) (∃ point ∈ points, point.LeavesBody i)
    (env'.closure i)

/-- The closures of the `n` earlier functions move as the points of the step say, however it ends. -/
def Tracks {α : Type} (n : Nat) (x : Monitor → Check α) (env : Env) : Prop :=
  Tracked n env → ∃ points, Visits x env points ∧ After n points env (envAfter (x noMonitor) env)

section
variable {n : Nat} {env env' env'' : Env} {points more : List Point}

/-- There is nothing to say about a closure that does not exist. -/
theorem Tracked.body (h : Tracked n env) (i : Nat) :
    (env.closure i).function.body.WellFormed ∨ (env.closure i).function.body = default := by
  cases hc : env.closures[i]? with
  | some c => exact .inl (closure_eq hc ▸ h.bodies i c hc)
  | none =>
    have hdefault : env.closure i = default := by simp [Env.closure, Array.getD_eq_getD_getElem?, hc]
    exact .inr (by rw [hdefault]; rfl)

theorem After.of_closures (h : Tracked n env) (hc : env'.closures = env.closures) : After n [] env env' := by
  refine ⟨⟨hc ▸ h.size, fun i c hi => h.bodies i c (hc ▸ hi)⟩, fun i _ => ?_⟩
  rw [Env.closure, Env.closure, hc]
  exact .rests (by simp) (by simp)

theorem After.trans (h : After n points env env') (h' : After n more env' env'') :
    After n (points ++ more) env env'' := by
  refine ⟨h'.tracked, fun i hi => ?_⟩
  simp only [List.mem_append, or_and_right, exists_or]
  exact (h.moves i hi).trans (h'.moves i hi)

end

namespace Tracks
variable {n : Nat} {α β : Type} {env : Env} {x : Monitor → Check α}

theorem assuming (h : Tracked n env → Tracks n x env) : Tracks n x env := fun ht => h ht ht

/-- A step that no monitor sees and that leaves the closures as they are. -/
theorem of_closures {x : Check α} (h : (envAfter x env).closures = env.closures) : Tracks n (fun _ => x) env :=
  fun ht => ⟨[], .unwatched x env, .of_closures ht h⟩

theorem bind {f : Monitor → α → Check β} (hx : Tracks n x env)
    (hf : ∀ a env', x noMonitor env = .ok a env' → Tracks n (fun monitor => f monitor a) env') :
    Tracks n (fun monitor => x monitor >>= f monitor) env := by
  intro ht
  obtain ⟨points, hvisits, hafter⟩ := hx ht
  cases hrun : x noMonitor env with
  | error fault env₁ =>
    rw [envAfter_of_error hrun] at hafter
    refine ⟨points, hvisits.bind_error hrun, ?_⟩
    rwa [envAfter_of_error (bind_error hrun)]
  | ok a env₁ =>
    rw [envAfter_of_ok hrun] at hafter
    obtain ⟨more, hvisits', hafter'⟩ := hf a env₁ hrun hafter.tracked
    refine ⟨points ++ more, hvisits.bind_ok hrun hvisits', ?_⟩
    rw [envAfter_bind_ok hrun]
    exact hafter.trans hafter'

theorem get {f : Monitor → Env → Check α} (h : Tracks n (fun monitor => f monitor env) env) :
    Tracks n (fun monitor => MonadState.get >>= f monitor) env := by
  intro ht
  obtain ⟨points, hvisits, hafter⟩ := h ht
  exact ⟨points, hvisits.get, hafter⟩

theorem inNewFrame (h : Tracks n x env.enter) : Tracks n (fun monitor => Check.inNewFrame (x monitor)) env := by
  intro ht
  obtain ⟨points, hvisits, hafter⟩ := h ⟨ht.size, ht.bodies⟩
  refine ⟨points, hvisits.inNewFrame, ?_⟩
  rw [envAfter_inNewFrame]
  exact ⟨⟨hafter.tracked.size, hafter.tracked.bodies⟩, hafter.moves⟩

theorem inFrames {frames : List Frame} (h : Tracks n x { env with frames }) :
    Tracks n (fun monitor => Check.inFrames frames (x monitor)) env := by
  intro ht
  obtain ⟨points, hvisits, hafter⟩ := h ⟨ht.size, ht.bodies⟩
  refine ⟨points, hvisits.inFrames, ?_⟩
  rw [envAfter_inFrames]
  exact ⟨⟨hafter.tracked.size, hafter.tracked.bodies⟩, hafter.moves⟩

theorem bindVar (id : Text) (t : Ty) : Tracks n (fun _ => Check.bindVar id t) env := by
  refine of_closures ?_
  rw [envAfter, Check.bindVar, changeOr_apply, bindVar?, modifyInnermost?]
  cases env.frames <;> rfl

theorem law : Law (Tracks n) :=
  ⟨fun _ => of_closures rfl, of_closures rfl, bind, get, fun _ _ => of_closures rfl, fun t _ => bindVar _ t, inNewFrame⟩

/-- The points of a step into a node are about no body. -/
theorem watched_node {t : Trail} {p : Path} {e : Expr} {inner : Monitor → Trail → Check α}
    (h : Tracks n (fun monitor => inner monitor (⟨.node p e, env⟩ :: t)) env) :
    Tracks n (fun monitor => watched monitor t (.node p e) (inner monitor)) env := by
  intro ht
  obtain ⟨points, hvisits, hafter⟩ := h ht
  cases hrun : inner noMonitor (⟨.node p e, env⟩ :: t) env with
  | error fault env' =>
    refine ⟨_, hvisits.watched_error hrun, ?_⟩
    rw [envAfter_watched]
    refine ⟨hafter.tracked, fun i hi => ?_⟩
    simpa [Point.EntersBody, Point.LeavesBody] using hafter.moves i hi
  | ok a env' =>
    refine ⟨_, hvisits.watched_ok hrun, ?_⟩
    rw [envAfter_watched]
    refine ⟨hafter.tracked, fun i hi => ?_⟩
    simpa [Point.EntersBody, Point.LeavesBody] using hafter.moves i hi

end Tracks

/-! ## Bodies -/

/-- What the check of a body does between its two changes of progress. -/
def walkBody (w : Walker) (occasion : Occasion) (i : Nat) : Check Ty := do
  let c := (← get).closure i
  let frames ← bodyFrames occasion c
  inFrames frames (checkFunction w c.site c.function)

theorem bodyRule_apply (w : Walker) (occasion : Occasion) (i : Nat) (env : Env) :
    bodyRule w occasion i env =
      match walkBody w occasion i (env.setProgress i .checking) with
      | .ok _ env' => .ok () (env'.setProgress i .checked)
      | .error fault env' => .error fault env' := by
  have hrule : bodyRule w occasion i = (Check.setProgress i .checking >>= fun _ => walkBody w occasion i >>= fun _ =>
      Check.setProgress i .checked) := by
    simp only [bodyRule, walkBody, bind_assoc]
  rw [hrule]
  show (walkBody w occasion i >>= fun _ => Check.setProgress i .checked) (env.setProgress i .checking) = _
  rw [bind_apply]
  cases walkBody w occasion i (env.setProgress i .checking) <;> rfl

theorem Visits.bodyRule {w : Monitor → Walker} {occasion : Occasion} {i : Nat} {env : Env} {points : List Point}
    (h : Visits (fun monitor => walkBody (w monitor) occasion i) (env.setProgress i .checking) points) :
    Visits (fun monitor => Typing.bodyRule (w monitor) occasion i) env points := by
  refine ⟨fun monitor hp => ?_, fun monitor fault hp => ?_⟩
  · rw [bodyRule_apply, bodyRule_apply, h.passed monitor hp]
  · obtain ⟨env', hrun⟩ := h.stopped monitor fault hp
    exact ⟨env', by rw [bodyRule_apply, hrun]⟩

/-- A way to go on with a check under monitors in which closures move as its points say. Declarations are of functions
behind the `n` earlier ones. -/
structure Walker.Tracks (n : Nat) (w : Monitor → Walker) : Prop where
  typeOf : ∀ p e env, e.WellFormed ∨ e = default → Typing.Tracks n (fun monitor => (w monitor).typeOf p e) env
  declaration : ∀ p loc id env, (∀ i, env.lookupFun? id = some i → n ≤ i) →
    Typing.Tracks n (fun monitor => (w monitor).typeOf p (.funDecl loc id)) env
  checkClosure : ∀ occasion i env, (env.closure i).progress = .unchecked ∨ n ≤ i →
    Typing.Tracks n (fun monitor => (w monitor).checkClosure occasion i) env
  binds : (w noMonitor).Binds

theorem closure_setProgress {env : Env} {j : Nat} (h : j < env.closures.size) (i : Nat) (progress : Progress) :
    (env.setProgress i progress).closure j =
      if i = j then { env.closure j with progress } else env.closure j := by
  obtain ⟨c, hc⟩ : ∃ c, env.closures[j]? = some c := ⟨_, Array.getElem?_eq_getElem h⟩
  have hset := getElem?_setProgress env i j progress
  rw [hc, Option.map_some, ← apply_ite some] at hset
  rw [closure_eq hset, closure_eq hc]

theorem Tracked.setProgress {n : Nat} {env : Env} (h : Tracked n env) (i : Nat) (progress : Progress) :
    Tracked n (env.setProgress i progress) := by
  refine ⟨by rw [Env.setProgress, Array.size_modify]; exact h.size, fun j c hj => ?_⟩
  rw [getElem?_setProgress] at hj
  split at hj
  · obtain ⟨c', hc', rfl⟩ := Option.map_eq_some_iff.1 hj
    exact h.bodies j c' hc'
  · exact h.bodies j c hj

namespace Tracks
variable {n : Nat} {env : Env} {w : Monitor → Walker}

section
variable (hw : Walker.Tracks n w)
include hw

theorem checkFunction {site : Path} {f : Function} (hf : f.body.WellFormed ∨ f.body = default) :
    Tracks n (fun monitor => Typing.checkFunction (w monitor) site f) env := by
  have hbody : Tracks n (fun monitor => Check.inNewFrame do
      bindParameters f.signature.loc f.signature.params
      (w monitor).typeOf site f.body) env :=
    inNewFrame ((law.bindParameters _).bind fun _ _ _ => hw.typeOf _ _ _ hf)
  refine hbody.bind fun t env₁ _ => get ?_
  dsimp only
  by_cases hret : env₁.notes.returnOf site f.signature = .any
  · simp only [if_pos hret]
    exact (of_closures rfl).bind fun _ _ _ => law.pure t
  · simp only [if_neg hret]
    exact law.require fun _ => law.pure t

theorem walkBody (occasion : Occasion) (i : Nat) :
    Tracks n (fun monitor => Typing.walkBody (w monitor) occasion i) env := by
  refine get (assuming fun ht => ?_)
  have hframes : Tracks n (fun _ => bodyFrames occasion (env.closure i)) env := by
    refine of_closures ?_
    cases occasion with
    | declaration => rfl
    | call =>
      rw [bodyFrames, envAfter, declaringFrames_apply]
      cases env.declaringFrames? (env.closure i).scope <;> rfl
  exact hframes.bind fun frames _ _ => inFrames (checkFunction hw (ht.body i))

end

section
variable {t : Trail} {occasion : Occasion} {i : Nat} {site : Path} {env₁ : Env} {points : List Point}
variable (ht : Tracked n env) (hi : (env.closure i).progress = .unchecked ∨ n ≤ i)
  (hwalk : After n points (env.setProgress i .checking) env₁)
include ht hi hwalk

/-- While a body is walked the other closures move, but not its own: that one is being checked. -/
theorem moves_walkBody {j : Nat} (hj : j < n) :
    i ≠ j ∧ (env.closure j).Moves (∃ point ∈ points, point.EntersBody j) (∃ point ∈ points, point.LeavesBody j)
        (env₁.closure j) ∨
      i = j ∧ (env.closure j).progress = .unchecked ∧ env₁.closure j = { env.closure j with progress := .checking } ∧
        ¬ ∃ point ∈ points, point.LeavesBody j := by
  have hmoves := hwalk.moves j hj
  rw [closure_setProgress (Nat.lt_of_lt_of_le hj ht.size)] at hmoves
  by_cases hij : i = j
  · subst hij
    rw [if_pos rfl] at hmoves
    obtain ⟨heq, -, hleaves⟩ := hmoves.of_ne_unchecked (by simp)
    exact .inr ⟨rfl, hi.resolve_right (by omega), heq, hleaves⟩
  · rw [if_neg hij] at hmoves
    exact .inl ⟨hij, hmoves⟩

theorem after_failed_body : After n (⟨t, .entering (.body occasion i site), env⟩ :: points) env env₁ := by
  refine ⟨hwalk.tracked, fun j hj => ?_⟩
  rcases moves_walkBody ht hi hwalk hj with ⟨hij, hmoves⟩ | ⟨rfl, hunchecked, heq, hleaves⟩
  · simpa [Point.EntersBody, Point.LeavesBody, hij] using hmoves
  · rw [heq]
    refine .stops hunchecked ⟨_, List.mem_cons_self, _, _, rfl⟩ ?_
    simpa [Point.LeavesBody] using hleaves

theorem after_checked_body : After n (⟨t, .entering (.body occasion i site), env⟩ ::
    (points ++ [⟨t, .leaving (.body occasion i site), env₁.setProgress i .checked⟩])) env
      (env₁.setProgress i .checked) := by
  refine ⟨hwalk.tracked.setProgress i .checked, fun j hj => ?_⟩
  rw [closure_setProgress (Nat.lt_of_lt_of_le hj hwalk.tracked.size)]
  rcases moves_walkBody ht hi hwalk hj with ⟨hij, hmoves⟩ | ⟨rfl, hunchecked, heq, -⟩
  · rw [if_neg hij]
    simpa [Point.EntersBody, Point.LeavesBody, hij] using hmoves
  · rw [if_pos rfl, heq]
    refine .finishes hunchecked ⟨_, List.mem_cons_self, _, _, rfl⟩ ?_
    exact ⟨_, List.mem_cons_of_mem _ (List.mem_append_right _ (List.mem_singleton_self _)), _, _, rfl⟩

end

/-- The check of a body that has not been looked at, or of a new function, with the two points around it. -/
theorem watched_body {t : Trail} {occasion : Occasion} {i : Nat} {site : Path} {w : Monitor → Trail → Walker}
    (hi : (env.closure i).progress = .unchecked ∨ n ≤ i)
    (hw : Walker.Tracks n fun monitor => w monitor (⟨.body occasion i site, env⟩ :: t)) :
    Tracks n (fun monitor => watched monitor t (.body occasion i site) fun t => bodyRule (w monitor t) occasion i)
      env := by
  intro ht
  obtain ⟨points, hvisits, hwalk⟩ := walkBody hw occasion i (ht.setProgress i .checking)
  have hrule := bodyRule_apply (w noMonitor (⟨.body occasion i site, env⟩ :: t)) occasion i env
  cases hrun : Typing.walkBody (w noMonitor (⟨.body occasion i site, env⟩ :: t)) occasion i
      (env.setProgress i .checking) with
  | error fault env₁ =>
    rw [envAfter_of_error hrun] at hwalk
    rw [hrun] at hrule
    refine ⟨_, hvisits.bodyRule.watched_error hrule, ?_⟩
    rw [envAfter_watched, envAfter_of_error hrule]
    exact after_failed_body ht hi hwalk
  | ok a env₁ =>
    rw [envAfter_of_ok hrun] at hwalk
    rw [hrun] at hrule
    refine ⟨_, hvisits.bodyRule.watched_ok hrule, ?_⟩
    rw [envAfter_watched, envAfter_of_ok hrule]
    exact after_checked_body ht hi hwalk

end Tracks

/-! ## Blocks -/

/-- Where functions of a block have been registered, earlier ones are what they were. -/
theorem Tracked.registered {n : Nat} {p : Path} {env env' : Env} {done : List Function} {funs : Dictionary Nat}
    {shows : Dictionary Nat → Prop} (ht : Tracked n env) (h : Registered p env done funs shows env')
    (hbodies : ∀ f ∈ done, f.body.WellFormed) : Tracked n env' ∧ ∀ i < n, env'.closure i = env.closure i := by
  refine ⟨⟨?_, fun i c hc => ?_⟩, fun i hi => ?_⟩
  · rw [h.size]
    exact Nat.le_add_right_of_le ht.size
  · rcases h.closure_cases hc with hc | ⟨k, hk, -⟩
    · exact ht.bodies i c hc
    · exact hbodies _ (List.mem_of_getElem? hk)
  · simp only [Env.closure, Array.getD_eq_getD_getElem?, h.before i (Nat.lt_of_lt_of_le hi ht.size)]

namespace Tracks
variable {n : Nat} {p : Path} {env : Env} {w : Monitor → Walker} {functions : List Function}

/-- A step that no monitor sees and that leaves the closures of the earlier functions as they are. -/
theorem of_unchanged {α : Type} {x : Check α}
    (h : Tracked n env → Tracked n (envAfter x env) ∧ ∀ i < n, (envAfter x env).closure i = env.closure i) :
    Tracks n (fun _ => x) env := by
  intro ht
  obtain ⟨ht', hsame⟩ := h ht
  refine ⟨[], .unwatched x env, ht', fun i hi => ?_⟩
  rw [hsame i hi]
  exact .rests (by simp) (by simp)

theorem registerAll (hbodies : ∀ f ∈ functions, f.body.WellFormed) :
    Tracks n (fun _ => Typing.registerAll p 0 functions) env.enter := by
  refine of_unchanged fun ht => ?_
  have ht₀ : Tracked n env := ⟨ht.size, ht.bodies⟩
  have hr := (Registered.enter p env).registerAll functions
  rw [List.length_nil] at hr
  cases hrun : Typing.registerAll p 0 functions env.enter with
  | ok _ env' =>
    rw [hrun] at hr
    obtain ⟨funs, h⟩ := hr
    rw [envAfter_of_ok hrun]
    exact ht₀.registered h hbodies
  | error fault env' =>
    rw [hrun] at hr
    obtain ⟨some, funs, hsome, h⟩ := hr
    rw [envAfter_of_error hrun]
    exact ht₀.registered h fun f hf => hbodies f (hsome.subset hf)

theorem linkSiblings {env' : Env} {funs : Dictionary Nat} (hbodies : ∀ f ∈ functions, f.body.WellFormed)
    (ht : Tracked n env) (h : Registered p env functions funs (fun _ => True) env') :
    Tracks n (fun _ => Check.linkSiblings) env' := by
  refine of_unchanged fun _ => ?_
  obtain ⟨env'', hlink, -, h'⟩ := h.link
  have hrun : Check.linkSiblings env' = .ok () env'' := by
    rw [Check.linkSiblings, changeOr_apply, hlink]
  obtain ⟨-, hsame⟩ := ht.registered h hbodies
  obtain ⟨ht', hsame'⟩ := ht.registered h' hbodies
  rw [envAfter_of_ok hrun]
  exact ⟨ht', fun i hi => (hsame' i hi).trans (hsame i hi).symm⟩

section
variable (hw : Walker.Tracks n w)
include hw

/-- Statements in a frame with the functions `funs`, in which the declarations find new functions. -/
theorem typeStatements {funs : Dictionary Nat} {i : Nat} {last : Ty} {es : List Expr} {f : Frame} {fs : List Frame}
    (hf : env.frames = f :: fs) (hfuns : f.funs = funs)
    (hwf : ∀ e ∈ es, e.isDeclaration = false → e.WellFormed)
    (hdecl : ∀ loc id, .funDecl loc id ∈ es → ∃ j, funs.find? id = some j ∧ n ≤ j) :
    Tracks n (fun monitor => Typing.typeStatements (w monitor) p i last es) env := by
  induction es generalizing env i last f with
  | nil => exact law.pure last
  | cons e es ih =>
    have hfirst : Tracks n (fun monitor => (w monitor).typeOf (i :: p) e) env := by
      cases hd : e.isDeclaration with
      | false => exact hw.typeOf _ _ _ (.inl (hwf e List.mem_cons_self hd))
      | true =>
        cases e with
        | funDecl loc id =>
          refine hw.declaration _ _ _ _ fun j hj => ?_
          obtain ⟨j', hj', hle⟩ := hdecl loc id List.mem_cons_self
          rw [lookupFun?, hf, List.findSome?_cons, hfuns, hj'] at hj
          exact Option.some.inj hj ▸ hle
        | _ => cases hd
    refine hfirst.bind fun ty env' hrun => ?_
    obtain ⟨f', hf', hgains⟩ := ((hw.binds.typeOf _ _).of_ok hrun).exists_gains hf
    exact ih hf' (hgains.funs.trans hfuns) (fun e he => hwf e (.tail _ he)) fun loc id hm => hdecl loc id (.tail _ hm)

theorem blockRule {loc : Location} {statements : List Expr} (hwf : (Expr.block loc functions statements).WellFormed) :
    Tracks n (fun monitor => Typing.blockRule (w monitor) p functions statements) env := by
  cases hwf with | block _ hbodies hstatements hdecl =>
  refine inNewFrame (assuming fun ht => (registerAll hbodies).bind fun _ env₁ hreg => ?_)
  have ht₀ : Tracked n env := ⟨ht.size, ht.bodies⟩
  have hr := (Registered.enter p env).registerAll functions
  rw [List.length_nil, hreg] at hr
  obtain ⟨funs, hr⟩ := hr
  refine (linkSiblings hbodies ht₀ hr).bind fun _ env₂ hrun => ?_
  obtain ⟨env', hlink, -, hr'⟩ := hr.link
  rw [Check.linkSiblings, changeOr_apply, hlink] at hrun
  cases hrun
  refine typeStatements hw hr'.frames rfl hstatements fun loc id hm => ?_
  -- what a declaration of the block finds is registered behind all that there was before the block
  have hmem : Expr.funDecl loc id ∈ functions.map fun f => declarationOf f.signature := by
    rw [← hdecl]
    exact List.mem_filter.2 ⟨hm, rfl⟩
  obtain ⟨f, hf, heq⟩ := List.mem_map.1 hmem
  cases heq
  obtain ⟨k, hk⟩ := List.getElem?_of_mem hf
  exact ⟨_, (hr'.names _ _).2 ⟨k, f, hk, rfl, rfl⟩, Nat.le_add_right_of_le ht.size⟩

theorem letRule {loc : Location} {id : Text} {value : Expr} (hv : value.WellFormed) :
    Tracks n (fun monitor => Typing.letRule (w monitor) p loc id value) env :=
  get (law.require fun _ => (hw.typeOf _ _ _ (.inl hv)).bind fun t _ _ => (bindVar id t).bind fun _ _ _ => law.pure _)

theorem declarationRule {id : Text} (h : ∀ i, env.lookupFun? id = some i → n ≤ i) :
    Tracks n (fun monitor => Typing.declarationRule (w monitor) id) env := by
  refine (law.registered id).bind fun i env' hrun => ?_
  rw [registered_apply] at hrun
  cases hi : env.lookupFun? id with
  | none =>
    rw [hi] at hrun
    cases hrun
  | some j =>
    rw [hi] at hrun
    cases hrun
    exact (hw.checkClosure _ _ _ (.inr (h _ hi))).bind fun _ _ _ => law.pure _

theorem rule {e : Expr} (h : e.WellFormed ∨ e = default) :
    Tracks n (fun monitor => Typing.rule (w monitor) p e) env := by
  rcases h with hwf | rfl
  · by_cases hblock : ∃ loc functions statements, e = .block loc functions statements
    · obtain ⟨loc, functions, statements, rfl⟩ := hblock
      exact blockRule hw hwf
    · have hne : ∀ loc functions statements, e ≠ .block loc functions statements :=
        fun loc functions statements he => hblock ⟨loc, functions, statements, he⟩
      refine law.rule (fun k part hk env => hw.typeOf _ _ env (.inl ?_))
        (fun i env hi => hw.checkClosure _ i env (.inl hi)) ?_ (fun _ _ _ he => absurd he (hne _ _ _)) ?_
      · exact hwf.of_mem_children_of_ne_block hne (List.mem_of_getElem? hk)
      · rintro loc id value rfl
        cases hwf with | letIn hv => exact letRule hw hv
      · rintro loc id rfl
        cases hwf
  · exact law.fails

end

end Tracks

theorem walker_tracks (n limit : Nat) (t : Trail) : Walker.Tracks n fun monitor => watchedWalker monitor limit t := by
  induction limit generalizing t with
  | zero =>
    refine ⟨fun _ _ _ _ => Tracks.law.fails, fun _ _ _ _ _ => Tracks.law.fails, fun _ _ _ _ => Tracks.law.fails, ?_⟩
    rw [walker_eq_watched]
    exact walker_binds 0
  | succ limit ih =>
    refine ⟨fun p e env h => ?_, fun p loc id env h => ?_, fun occasion i env h => ?_, ?_⟩
    · simp only [watchedWalker, watchedTypeOf]
      refine Tracks.watched_node ?_
      exact (Tracks.rule (ih _) h).bind fun ty _ _ => (Tracks.law.note p ty).bind fun _ _ _ => Tracks.law.pure ty
    · simp only [watchedWalker, watchedTypeOf]
      refine Tracks.watched_node ?_
      exact (Tracks.declarationRule (ih _) h).bind fun ty _ _ =>
        (Tracks.law.note p ty).bind fun _ _ _ => Tracks.law.pure ty
    · simp only [watchedWalker, watchedClosure]
      exact Tracks.get (Tracks.watched_body h (ih _))
    · rw [walker_eq_watched]
      exact walker_binds _

/-! ## Whole checks -/

/-- The check of the tree begins to check the body of the closure at position `i`. -/
def Begins (p : Path) (e : Expr) (env : Env) (i : Nat) : Prop := ∃ point, Reaches p e env point ∧ point.EntersBody i

/-- The check of the tree completes the check of the body of the closure at position `i`. -/
def Completes (p : Path) (e : Expr) (env : Env) (i : Nat) : Prop := ∃ point, Reaches p e env point ∧ point.LeavesBody i

/-- A call that is decided by what the function of the closure states, without its body. -/
def statedCall (w : Walker) (p : Path) (loc : Location) (callee : Text) (args : List Expr) (c : Closure) :
    Check Ty := do
  let params := c.function.signature.params
  if (← get).returnOf c = .any then refuse (.needsReturnType callee) loc
  if args.length ≠ params.length then refuse (.argumentCount callee params.length args.length) loc
  checkArguments w callee p 0 args params
  return (← get).returnOf c

theorem check_after {e : Expr} {env : Env} (hwf : e.WellFormed) (hbodies : env.WellFormed) (p : Path) :
    Tracked env.closures.size (envAfter (check p e) env) ∧ ∀ i < env.closures.size,
      (env.closure i).Moves (Begins p e env i) (Completes p e env i) ((envAfter (check p e) env).closure i) := by
  have hw := walker_tracks env.closures.size (nestingLimit env e.nodeCount) []
  obtain ⟨points, hvisits, hafter⟩ := hw.typeOf p e env (.inl hwf) ⟨Nat.le_refl _, hbodies⟩
  have hcheck : Visits (fun monitor => watchedCheck monitor p e) env points := hvisits.get
  have hsame : envAfter (check p e) env = envAfter (typeOf (nestingLimit env e.nodeCount) p e) env := rfl
  simp only [walker_eq_watched] at hafter
  simp only [Begins, Completes, hcheck.reaches_iff, hsame]
  exact ⟨hafter.tracked, hafter.moves⟩

/-- The check of arguments leaves a closure alone that has been looked at. -/
theorem closure_checkArguments {limit : Nat} {p : Path} {callee : Text} {args : List Expr}
    {params : List (Text × Ty)} {env env' : Env} {i : Nat} (hprogress : (env.closure i).progress ≠ .unchecked)
    (hbodies : env.WellFormed) (hargs : ∀ arg ∈ args, arg.WellFormed)
    (hrun : checkArguments (walker limit) callee p 0 args params env = .ok () env') :
    env'.closure i = env.closure i := by
  have hlt : i < env.closures.size := by
    refine Nat.lt_of_not_le fun hle => hprogress ?_
    simp [Env.closure, Array.getD_eq_getD_getElem?, Array.getElem?_eq_none hle]
    rfl
  have htracks : Tracks env.closures.size (fun monitor =>
      checkArguments (watchedWalker monitor limit []) callee p 0 args params) env :=
    Tracks.law.checkArguments callee fun k arg hk env =>
      (walker_tracks _ limit []).typeOf _ _ _ (.inl (hargs _ (List.mem_of_getElem? hk)))
  obtain ⟨points, -, hafter⟩ := htracks ⟨Nat.le_refl _, hbodies⟩
  simp only [walker_eq_watched] at hafter
  rw [envAfter_of_ok hrun] at hafter
  exact ((hafter.moves i hlt).of_ne_unchecked hprogress).1

/-- A call of a function whose body has been looked at is decided without it. -/
theorem callRule_eq_statedCall {limit : Nat} {p : Path} {loc : Location} {callee : Text} {args : List Expr} {env : Env}
    {i : Nat} (hi : env.lookupFun? callee = some i) (hprogress : (env.closure i).progress ≠ .unchecked)
    (hbodies : env.WellFormed) (hargs : ∀ arg ∈ args, arg.WellFormed) :
    callRule (walker limit) p loc callee args env =
      statedCall (walker limit) p loc callee args (env.closure i) env := by
  rw [callRule, get_bind_apply, hi, statedCall]
  dsimp only
  rw [get_bind_apply, get_bind_apply, get_bind_apply]
  by_cases hret : env.returnOf (env.closure i) = .any
  · rw [if_pos hret, if_pos hret]
    rfl
  · rw [if_neg hret, if_neg hret]
    by_cases hlength : args.length ≠ (env.closure i).function.signature.params.length
    · rw [if_pos hlength, if_pos hlength]
      rfl
    · rw [if_neg hlength, if_neg hlength, bind_apply, bind_apply]
      cases hrun : checkArguments (walker limit) callee p 0 args (env.closure i).function.signature.params env with
      | error fault env₁ => rfl
      | ok _ env₁ =>
        have hsame := closure_checkArguments hprogress hbodies hargs hrun
        dsimp only
        rw [get_bind_apply, hsame, if_neg hprogress]

/-- A check that fails takes nothing back. A function from before that has been looked at is as it was. Another one is
so too if its body was not reached, it is checked if the check of its body was completed, and it is being checked if
that was begun only. From then on no check in this environment begins with its body, and calls of it are decided by
what it states. -/
theorem failed_check_progress {tokens : TokenStream} {program : Expr} (h : readProgram tokens = .ok program) {p : Path}
    {env env' : Env} {fault : Fault} (hbodies : env.WellFormed) (hfails : check p program env = .error fault env') :
    ∀ i < env.closures.size,
      (env.closure i).Moves (Begins p program env i) (Completes p program env i) (env'.closure i) ∧
      ((env'.closure i).progress ≠ .unchecked →
        (∀ q e, e.WellFormed → ¬ Begins q e env' i ∧ (envAfter (check q e) env').closure i = env'.closure i) ∧
        ∀ limit q loc callee args, env'.lookupFun? callee = some i → (∀ arg ∈ args, arg.WellFormed) →
          callRule (walker limit) q loc callee args env' =
            statedCall (walker limit) q loc callee args (env'.closure i) env') := by
  intro i hi
  obtain ⟨htracked, hmoves⟩ := check_after (isProgram_of_readProgram h).1 hbodies p
  rw [envAfter_of_error hfails] at htracked hmoves
  refine ⟨hmoves i hi, fun hprogress => ⟨fun q e hwf => ?_, fun limit q loc callee args hfound hargs => ?_⟩⟩
  · obtain ⟨-, hlater⟩ := check_after hwf htracked.bodies q
    obtain ⟨hsame, hbegins, -⟩ := (hlater i (Nat.lt_of_lt_of_le hi htracked.size)).of_ne_unchecked hprogress
    exact ⟨hbegins, hsame⟩
  · exact callRule_eq_statedCall hfound hprogress htracked.bodies hargs

/-! ## A function that fails -/

/-- The function `fun f():int=true`. -/
def lyingFunction : Function :=
  ⟨⟨"f", ⟨"b", 1, 1⟩, [], .int⟩, .literal ⟨"b", 1, 13⟩ (.bool true)⟩

theorem readProgram_lyingFunction : readProgram (.ofSources [⟨"fun f():int=true", "b"⟩]) =
    .ok (.block ⟨"b", 1, 1⟩ [lyingFunction] [.funDecl ⟨"b", 1, 1⟩ "f"]) := by
  with_unfolding_all rfl

/-- A session with one open frame, in which the function is registered and linked. -/
def lyingSession : Session :=
  .run [(0, .enter), (0, .register "f" lyingFunction [0, 0]), (0, .linkSiblings)]

def lyingEnv : Env := lyingSession.env (lyingSession.environments.getD 0 [])

/-- The program `f()`. -/
def lyingCall : Expr := .block ⟨"a", 1, 1⟩ [] [.call ⟨"a", 1, 1⟩ "f" []]

theorem readProgram_lyingCall : readProgram (.ofSources [⟨"f()", "a"⟩]) = .ok lyingCall := by
  with_unfolding_all rfl

/-- The body of the function does not have the type that the function states. The first check of a call fails, the
second one in the same environment does not. -/
theorem lyingCall_accepted : ∃ env env', (lyingEnv.closure 0).progress = .unchecked ∧
    check [1] lyingCall lyingEnv = .error (.typing (.returnType .int .bool) ⟨"b", 1, 1⟩) env ∧
    (env.closure 0).progress = .checking ∧ check [1] lyingCall env = .ok .int env' :=
  ⟨_, _, rfl, rfl, rfl, rfl⟩

theorem lyingCall_progress : ∃ env,
    check [1] lyingCall lyingEnv = .error (.typing (.returnType .int .bool) ⟨"b", 1, 1⟩) env ∧
      (env.closure 0).progress = .checking ∧ Begins [1] lyingCall lyingEnv 0 ∧ ¬ Completes [1] lyingCall lyingEnv 0 ∧
      ¬ Begins [1] lyingCall env 0 := by
  have hbodies : lyingEnv.WellFormed := by
    intro i c hc
    have hfunctions : lyingEnv.closures.toList.map (·.function) = [lyingFunction] := rfl
    have hmem : c.function ∈ lyingEnv.closures.toList.map (·.function) :=
      List.mem_map.2 ⟨c, Array.mem_toList_iff.2 (Array.mem_of_getElem? hc), rfl⟩
    rw [hfunctions] at hmem
    exact (isProgram_of_readProgram readProgram_lyingFunction).1.body hmem
  have hrun : ∃ env, check [1] lyingCall lyingEnv = .error (.typing (.returnType .int .bool) ⟨"b", 1, 1⟩) env ∧
      (env.closure 0).progress = .checking := ⟨_, rfl, rfl⟩
  obtain ⟨env, hfails, hprogress⟩ := hrun
  obtain ⟨hmoves, hlater⟩ := failed_check_progress readProgram_lyingCall hbodies hfails 0 (by decide)
  obtain ⟨hbegins, hcompletes⟩ := (hmoves.eq_checking_iff rfl).1 hprogress
  have hwf := (isProgram_of_readProgram readProgram_lyingCall).1
  exact ⟨env, hfails, hprogress, hbegins, hcompletes, ((hlater (by simp [hprogress])).1 [1] lyingCall hwf).1⟩

end Typing
end FrontEnd
