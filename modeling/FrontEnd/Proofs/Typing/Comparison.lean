import FrontEnd.Proofs.Syntax.Alike
import FrontEnd.Proofs.Typing.Run

/-!
# Comparing runs of a check

What a check keeps, and what two checks have in common, is proved by going through the rules with two runs side by
side: those of different walkers, of trees with different places, or in different environments. A property of a single
run compares it with itself.

* `Expr.bindings` : the names that a tree binds in the frame in which it is typed;
* `Comparison` : what is compared at each point of two runs; `Comparison.Lawful` : what it takes to put steps together;
* `Comparison.Holds` : a comparison holds of two steps; `Comparison.Holds.bind`, `Comparison.Holds.require`, … : it
  does of steps put together;
* `Comparison.Holds.rule`, `Comparison.Holds.callRule`, … : it goes over from the parts of a node to the rule of its
  kind;
* `Comparison.alone` : comparisons of runs in the same environment.
-/

namespace FrontEnd

namespace Expr

mutual

/-- The names that a tree binds in the frame it is typed in. Blocks, loops with a variable and the bodies of functions
have frames of their own. -/
def bindings : Expr → List Text
  | literal .. | name .. | forLoop .. | block .. | funDecl .. => []
  | unary _ _ operand => operand.bindings
  | binary _ _ lhs rhs => lhs.bindings ++ rhs.bindings
  | letIn _ id value => value.bindings ++ [id]
  | ifThen _ test body => test.bindings ++ body.bindings
  | ifElse _ test body orelse => test.bindings ++ (body.bindings ++ orelse.bindings)
  | whileLoop _ test body => test.bindings ++ body.bindings
  | call _ _ args => bindingsOf args

/-- The names that several trees bind in the frame they are typed in. -/
def bindingsOf : List Expr → List Text
  | [] => []
  | e :: es => e.bindings ++ bindingsOf es

end

/-- Whether a node is typed in a frame of its own. -/
def opensFrame : Expr → Bool
  | forLoop .. | block .. => true
  | _ => false

theorem bindings_of_opensFrame {e : Expr} (h : e.opensFrame) : e.bindings = [] := by
  cases e with
  | forLoop | block => rfl
  | _ => cases h

/-- Whether the rule of a node does more with scopes than to look up variables and to open a frame. -/
def changesScope : Expr → Bool
  | letIn .. | block .. | call .. | funDecl .. => true
  | _ => false

end Expr

namespace Typing
open Check Env

/-! ## Comparisons -/

/-- What is compared at each point of two runs. -/
structure Comparison where
  /-- The environments of the two runs where both have come to the same point. -/
  related : Env → Env → Prop
  /-- What a step of the first run that binds these names changes at most. -/
  moves : List Text → Env → Env → Prop
  /-- What such a step changes at most if it fails. -/
  breaks : List Text → Env → Env → Prop := fun _ _ _ => True
  /-- Whether the second run can have come to a point that the first one comes to. -/
  foretold : Env → Prop := fun _ => True
  /-- Whether the second run has to fail too where the first one fails. -/
  awaited : Fault → Env → Prop
  /-- The faults with which both fail, and the environments that they leave behind. -/
  faults : Fault → Fault → Env → Env → Prop
  /-- The places of nodes that belong together. -/
  places : Location → Location → Prop := Eq
  /-- Whether both runs see the same variable under a name. -/
  sees : Text → Prop := fun _ => True
  /-- What is known of the types of trees. -/
  typed : Ty → Prop := fun _ => True
  /-- Where the second run has the closure that is at a position in the first one. -/
  position : Nat → Nat := id

/-- `x` in `env` and `y` in `env'` : if the environments are related, so are those in which they end, with the same
value. The second one ends, or fails, as far as that is foretold. -/
def Comparison.Holds (C : Comparison) {α : Type} (names : List Text) (x y : Check α) (env env' : Env)
    (post : α → Prop) : Prop :=
  C.related env env' →
    match x env with
    | .ok a env₁ => C.moves names env env₁ ∧ post a ∧
        ∃ env₁', C.related env₁ env₁' ∧ (C.foretold env₁ → y env' = .ok a env₁')
    | .error fault env₁ => C.breaks names env env₁ ∧
        (C.awaited fault env₁ → ∃ fault' env₁', y env' = .error fault' env₁' ∧ C.faults fault fault' env₁ env₁')

/-- How one comes back from the environments `inner` and `inner'`, in which the runs are compared by `D`, to `env` and
`env'`. -/
structure Comparison.Within (C D : Comparison) (env env' inner inner' : Env) (back back' : Env → Env) : Prop where
  related : D.related inner inner'
  moves : ∀ {names env₁ env₁'}, D.moves names inner env₁ → D.related env₁ env₁' →
    C.moves [] env (back env₁) ∧ C.related (back env₁) (back' env₁')
  breaks : ∀ {names env₁}, D.breaks names inner env₁ → C.breaks [] env (back env₁)
  foretold : ∀ {env₁}, C.foretold (back env₁) → D.foretold env₁
  awaited : ∀ {fault env₁}, C.awaited fault (back env₁) → D.awaited fault env₁
  faults : ∀ {fault fault' env₁ env₁'}, D.faults fault fault' env₁ env₁' →
    C.faults fault fault' (back env₁) (back' env₁')

/-- What it takes to compare steps that are put together. -/
class Comparison.Lawful (C : Comparison) : Prop where
  refl : ∀ env, C.moves [] env env
  trans : ∀ {names more env env₁ env₂}, C.moves names env env₁ → C.moves more env₁ env₂ →
    C.moves (names ++ more) env env₂
  breaks_refl : ∀ {env env'}, C.related env env' → C.breaks [] env env
  breaks_append : ∀ {names env env₁} more, C.breaks names env env₁ → C.breaks (names ++ more) env env₁
  breaks_after : ∀ {names more env env₁ env₂}, C.moves names env env₁ → C.breaks more env₁ env₂ →
    C.breaks (names ++ more) env env₂
  foretold_of_moves : ∀ {names env env₁}, C.moves names env env₁ → C.foretold env₁ → C.foretold env
  foretold_of_breaks : ∀ {names fault env env₁}, C.breaks names env env₁ → C.awaited fault env₁ → C.foretold env
  refused : ∀ {cause loc loc' env env'}, C.related env env' → C.awaited (.typing cause loc) env → C.places loc loc' →
    C.faults (.typing cause loc) (.typing cause loc') env env'
  stopped : ∀ {cause env env'}, C.related env env' → C.awaited (.internal cause) env →
    C.faults (.internal cause) (.internal cause) env env'
  note : ∀ {env env'} p t, C.related env env' →
    C.related { env with notes := env.notes.setType p t } { env' with notes := env'.notes.setType p t } ∧
      C.moves [] env { env with notes := env.notes.setType p t }
  enter : ∀ {env env'}, C.related env env' → C.Within C env env' env.enter env'.enter (·.leave) (·.leave)
  lookupVar? : ∀ {env env' id}, C.related env env' → C.foretold env → C.sees id →
    env'.lookupVar? id = env.lookupVar? id
  hasVar : ∀ {env env' id}, C.related env env' → C.foretold env → C.sees id → env'.hasVar id = env.hasVar id
  lookupFun? : ∀ {env env'} id, C.related env env' → C.foretold env →
    env'.lookupFun? id = (env.lookupFun? id).map C.position
  typed_of_ne_any : ∀ {t}, t ≠ .any → C.typed t
  typed_of_lookupVar? : ∀ {env env' id t}, C.related env env' → env.lookupVar? id = some t → C.typed t

namespace Comparison.Holds
variable {C D : Comparison} [C.Lawful] {α β : Type} {names more : List Text} {env env' : Env}
variable {post : α → Prop} {post' : β → Prop}

/-! ## Steps put together -/

theorem pure {a : α} (h : post a) : C.Holds [] (pure a) (pure a) env env' post :=
  fun hr => ⟨Lawful.refl env, h, env', hr, fun _ => rfl⟩

theorem fail {fault fault' : Fault}
    (h : C.related env env' → C.awaited fault env → C.faults fault fault' env env') :
    C.Holds names (throw fault) (throw fault') env env' post :=
  fun hr => ⟨Lawful.breaks_append names (Lawful.breaks_refl hr), fun hawaited => ⟨fault', env', rfl, h hr hawaited⟩⟩

theorem refuse {loc loc' : Location} (hloc : C.places loc loc') (cause : TypeError) :
    C.Holds names (refuse cause loc) (refuse cause loc') env env' post :=
  fail fun hr hawaited => Lawful.refused hr hawaited hloc

theorem stop (cause : InternalError) :
    C.Holds names (throw (.internal cause)) (throw (.internal cause)) env env' post :=
  fail Lawful.stopped

theorem bind {x y : Check α} {f g : α → Check β} (hx : C.Holds names x y env env' post)
    (hf : ∀ a env₁ env₁', C.moves names env env₁ → post a → C.Holds more (f a) (g a) env₁ env₁' post') :
    C.Holds (names ++ more) (x >>= f) (y >>= g) env env' post' := by
  intro hr
  have hfirst := hx hr
  rw [bind_apply]
  cases hrun : x env with
  | error fault env₁ =>
    rw [hrun] at hfirst
    obtain ⟨hbreaks, hfails⟩ := hfirst
    refine ⟨Lawful.breaks_append more hbreaks, fun hawaited => ?_⟩
    obtain ⟨fault', env₁', hy, hfaults⟩ := hfails hawaited
    exact ⟨fault', env₁', bind_error hy, hfaults⟩
  | ok a env₁ =>
    rw [hrun] at hfirst
    obtain ⟨hmoves, hpost, env₁', hr₁, hy⟩ := hfirst
    have hnext := hf a env₁ env₁' hmoves hpost hr₁
    dsimp only
    cases hrun' : f a env₁ with
    | error fault env₂ =>
      rw [hrun'] at hnext
      obtain ⟨hbreaks, hfails⟩ := hnext
      refine ⟨Lawful.breaks_after hmoves hbreaks, fun hawaited => ?_⟩
      obtain ⟨fault', env₂', hg, hfaults⟩ := hfails hawaited
      refine ⟨fault', env₂', ?_, hfaults⟩
      rw [bind_apply, hy (Lawful.foretold_of_breaks hbreaks hawaited)]
      exact hg
    | ok b env₂ =>
      rw [hrun'] at hnext
      obtain ⟨hmoves', hpost', env₂', hr₂, hg⟩ := hnext
      refine ⟨Lawful.trans hmoves hmoves', hpost', env₂', hr₂, fun hforetold => ?_⟩
      rw [bind_apply, hy (Lawful.foretold_of_moves hmoves' hforetold)]
      exact hg hforetold

/-- A step that is followed by others which bind nothing. -/
theorem last {x y : Check α} {f g : α → Check β} (hx : C.Holds names x y env env' post)
    (hf : ∀ a env₁ env₁', C.moves names env env₁ → post a → C.Holds [] (f a) (g a) env₁ env₁' post') :
    C.Holds names (x >>= f) (y >>= g) env env' post' := by
  have h := bind hx hf
  rwa [List.append_nil] at h

omit [C.Lawful] in
theorem weaken {x y : Check α} {post' : α → Prop} (hx : C.Holds names x y env env' post) (h : ∀ a, post a → post' a) :
    C.Holds names x y env env' post' := by
  intro hr
  have hx := hx hr
  cases hrun : x env with
  | error fault env₁ =>
    rw [hrun] at hx
    exact hx
  | ok a env₁ =>
    rw [hrun] at hx
    exact ⟨hx.1, h a hx.2.1, hx.2.2⟩

omit [C.Lawful] in
/-- A step of which nothing more is asked than that it ends. -/
theorem ended {x y : Check α} (hx : C.Holds names x y env env' post) : C.Holds names x y env env' fun _ => True :=
  hx.weaken fun _ _ => trivial

omit [C.Lawful] in
theorem assuming {x y : Check α} (h : C.related env env' → C.Holds names x y env env' post) :
    C.Holds names x y env env' post :=
  fun hr => h hr hr

omit [C.Lawful] in
/-- A comparison of runs that are in the same environment. -/
theorem of_self {x y : Check α} (hsame : C.related env env' → env' = env) (h : C.Holds names x y env env post) :
    C.Holds names x y env env' post :=
  assuming fun hr => (hsame hr).symm ▸ h

/-- Another step of the second run, which does the same there. -/
theorem congr {x y z : Check α} (hy : C.related env env' → C.foretold env → y env' = z env')
    (h : C.Holds names x z env env' post) : C.Holds names x y env env' post := by
  intro hr
  have h := h hr
  cases hrun : x env with
  | error fault env₁ =>
    rw [hrun] at h
    refine ⟨h.1, fun hawaited => ?_⟩
    rw [hy hr (Lawful.foretold_of_breaks h.1 hawaited)]
    exact h.2 hawaited
  | ok a env₁ =>
    rw [hrun] at h
    obtain ⟨hmoves, hpost, env₁', hr₁, hy'⟩ := h
    refine ⟨hmoves, hpost, env₁', hr₁, fun hforetold => ?_⟩
    rw [hy hr (Lawful.foretold_of_moves hmoves hforetold)]
    exact hy' hforetold

omit [C.Lawful] in
theorem get {f g : Env → Check α} (h : C.Holds names (f env) (g env') env env' post) :
    C.Holds names (MonadState.get >>= f) (MonadState.get >>= g) env env' post := h

theorem ite {c c' : Prop} [Decidable c] [Decidable c'] {x x' y y' : Check α}
    (hc : C.related env env' → C.foretold env → (c' ↔ c)) (hx : c → C.Holds names x x' env env' post)
    (hy : ¬ c → C.Holds names y y' env env' post) :
    C.Holds names (if c then x else y) (if c' then x' else y') env env' post := by
  by_cases h : c
  · rw [if_pos h]
    refine congr (fun hr hforetold => ?_) (hx h)
    rw [if_pos ((hc hr hforetold).2 h)]
  · rw [if_neg h]
    refine congr (fun hr hforetold => ?_) (hy h)
    rw [if_neg fun h' => h ((hc hr hforetold).1 h')]

/-- A condition that is refused, in front of what comes next. -/
theorem require {c c' : Prop} [Decidable c] [Decidable c'] {fault fault' : Fault} {f g : Unit → Check α}
    (hpos : c → C.related env env' → C.awaited fault env → c' ∧ C.faults fault fault' env env')
    (hneg : ¬ c → C.related env env' → C.foretold env → ¬ c')
    (h : ¬ c → C.Holds names (f ()) (g ()) env env' post) :
    C.Holds names (if c then (throw fault : Check Unit) >>= f else f ())
      (if c' then (throw fault' : Check Unit) >>= g else g ()) env env' post := by
  by_cases hc : c
  · rw [if_pos hc]
    refine fun hr => ⟨Lawful.breaks_append names (Lawful.breaks_refl hr), fun hawaited => ?_⟩
    obtain ⟨hc', hfaults⟩ := hpos hc hr hawaited
    rw [if_pos hc']
    exact ⟨fault', env', rfl, hfaults⟩
  · rw [if_neg hc]
    refine congr (fun hr hforetold => ?_) (h hc)
    rw [if_neg (hneg hc hr hforetold)]

/-- A condition of both runs that is refused as an error in the types of the program. -/
theorem check {c c' : Prop} [Decidable c] [Decidable c'] {cause : TypeError} {loc loc' : Location}
    {f g : Unit → Check α} (hc : C.related env env' → C.foretold env → (c' ↔ c)) (hloc : C.places loc loc')
    (h : ¬ c → C.Holds names (f ()) (g ()) env env' post) :
    C.Holds names (if c then Check.refuse cause loc >>= f else f ())
      (if c' then Check.refuse cause loc' >>= g else g ()) env env' post := by
  refine require (fun hpos hr hawaited => ⟨?_, Lawful.refused hr hawaited hloc⟩) (fun hneg hr hforetold => ?_) h
  · exact (hc hr (Lawful.foretold_of_breaks (Lawful.breaks_refl hr) hawaited)).2 hpos
  · exact fun h' => hneg ((hc hr hforetold).1 h')

omit [C.Lawful] in
theorem of_eq {x y z : Check α} (hx : x env = z env) (h : C.Holds names z y env env' post) :
    C.Holds names x y env env' post := by
  unfold Holds
  rw [hx]
  exact h

/-- Steps that only look at their environments. -/
theorem read {γ δ : Type} {x : Check γ} {y : Check δ} {c : γ} {d : δ} {f : γ → Check α} {g : δ → Check α}
    (hx : x env = .ok c env) (hy : C.related env env' → C.foretold env → y env' = .ok d env')
    (h : C.Holds names (f c) (g d) env env' post) : C.Holds names (x >>= f) (y >>= g) env env' post :=
  of_eq (by rw [bind_apply, hx]) (congr (fun hr hforetold => by rw [bind_apply, hy hr hforetold]) h)

/-- A step that looks for something which both environments have or both lack. -/
theorem find {γ : Type} {x y : Check γ} {look look' : Env → Option γ} {cause : InternalError} {f g : γ → Check α}
    (counterpart : γ → γ) (hx : ∀ env, x env = (look env).elim (.error (.internal cause) env) (.ok · env))
    (hy : ∀ env, y env = (look' env).elim (.error (.internal cause) env) (.ok · env))
    (hlook : C.related env env' → C.foretold env → look' env' = (look env).map counterpart)
    (h : ∀ c, look env = some c → C.Holds names (f c) (g (counterpart c)) env env' post) :
    C.Holds names (x >>= f) (y >>= g) env env' post := by
  cases hfound : look env with
  | none =>
    refine of_eq (z := throw (.internal cause)) ?_ (congr (z := throw (.internal cause)) (fun hr hforetold => ?_) ?_)
    · rw [bind_apply, hx, hfound]
      rfl
    · rw [bind_apply, hy, hlook hr hforetold, hfound]
      rfl
    · exact stop cause
  | some c =>
    refine read (c := c) (d := counterpart c) ?_ (fun hr hforetold => ?_) (h c hfound)
    · rw [hx, hfound]
      rfl
    · rw [hy, hlook hr hforetold, hfound]
      rfl

/-! ## Single steps -/

omit [C.Lawful] in
theorem change {f g : Env → Env} (h : C.related env env' → C.related (f env) (g env') ∧ C.moves names env (f env)) :
    C.Holds names (modify f) (modify g) env env' fun _ => True :=
  fun hr => ⟨(h hr).2, trivial, g env', (h hr).1, fun _ => rfl⟩

/-- A change that is possible in both environments or in neither. -/
theorem changeOr {cause : InternalError} {f g : Env → Option Env}
    (hnone : C.related env env' → f env = none → C.awaited (.internal cause) env → g env' = none)
    (hsome : ∀ env₁, C.related env env' → f env = some env₁ → C.moves names env env₁ ∧
      ∃ env₁', C.related env₁ env₁' ∧ (C.foretold env₁ → g env' = some env₁')) :
    C.Holds names (Check.changeOr cause f) (Check.changeOr cause g) env env' fun _ => True := by
  intro hr
  rw [changeOr_apply]
  cases hf : f env with
  | none =>
    refine ⟨Lawful.breaks_append names (Lawful.breaks_refl hr), fun hawaited => ?_⟩
    refine ⟨_, env', ?_, Lawful.stopped hr hawaited⟩
    rw [changeOr_apply, hnone hr hf hawaited]
  | some env₁ =>
    obtain ⟨hmoves, env₁', hr₁, hg⟩ := hsome env₁ hr hf
    refine ⟨hmoves, trivial, env₁', hr₁, fun hforetold => ?_⟩
    rw [changeOr_apply, hg hforetold]

theorem note (p : Path) (t : Ty) : C.Holds [] (Check.note p t) (Check.note p t) env env' fun _ => True :=
  change fun hr => Lawful.note p t hr

omit [C.Lawful] in
/-- A step in an environment that is made for it, and in which one comes back however the step ends. -/
theorem within {x x' y y' : Check α} {inner inner' : Env} {back back' : Env → Env}
    (hx : x env = comingBack x' inner back) (hy : y env' = comingBack y' inner' back')
    (hin : C.related env env' → C.Within D env env' inner inner' back back')
    (h : D.Holds names x' y' inner inner' post) : C.Holds [] x y env env' post := by
  intro hr
  have hin := hin hr
  have h := h hin.related
  rw [hx, hy, comingBack, comingBack]
  cases hrun : x' inner with
  | error fault env₁ =>
    rw [hrun] at h
    refine ⟨hin.breaks h.1, fun hawaited => ?_⟩
    obtain ⟨fault', env₁', hrun', hfaults⟩ := h.2 (hin.awaited hawaited)
    rw [hrun']
    exact ⟨fault', back' env₁', rfl, hin.faults hfaults⟩
  | ok a env₁ =>
    rw [hrun] at h
    obtain ⟨hmoves, hpost, env₁', hr₁, hrun'⟩ := h
    obtain ⟨hmoves, hr₁⟩ := hin.moves hmoves hr₁
    refine ⟨hmoves, hpost, back' env₁', hr₁, fun hforetold => ?_⟩
    rw [hrun' (hin.foretold hforetold)]

theorem inNewFrame {x y : Check α} (h : C.Holds names x y env.enter env'.enter post) :
    C.Holds [] (Check.inNewFrame x) (Check.inNewFrame y) env env' post :=
  within rfl rfl Lawful.enter h

omit [C.Lawful] in
theorem inFrames {x y : Check α} {frames frames' : List Frame}
    (hin : C.related env env' → C.Within D env env' { env with frames } { env' with frames := frames' }
      ({ · with frames := env.frames }) ({ · with frames := env'.frames }))
    (h : D.Holds names x y { env with frames } { env' with frames := frames' } post) :
    C.Holds [] (Check.inFrames frames x) (Check.inFrames frames' y) env env' post :=
  within rfl rfl hin h

end Comparison.Holds

/-! ## Parts of nodes -/

/-- What has been found out about trees, the parts of the node at `p` from position `i` on. -/
def FoundAll (found : Path → Expr → Prop) (p : Path) (i : Nat) (es : List Expr) : Prop :=
  ∀ (k : Nat) part, es[k]? = some part → found ((i + k) :: p) part

namespace FoundAll
variable {found : Path → Expr → Prop} {p : Path} {i : Nat} {e : Expr} {es : List Expr}

theorem nil : FoundAll found p i [] := by
  intro k part hk
  simp at hk

theorem cons (h : found (i :: p) e) (hs : FoundAll found p (i + 1) es) : FoundAll found p i (e :: es) := by
  intro k part hk
  cases k with
  | zero =>
    obtain rfl := Option.some.inj hk
    exact h
  | succ k =>
    rw [show i + (k + 1) = i + 1 + k by omega]
    exact hs k part hk

end FoundAll

/-- Wherever the runs have come to since `env`, the comparison holds of the walks of trees, the parts of nodes at `p`
from position `i` on, and `found` is known of each of them. -/
def Comparison.Walks (C : Comparison) (v w : Walker) (found : Path → Expr → Prop) (p : Path) (i : Nat)
    (es es' : List Expr) (env : Env) : Prop :=
  ∀ (k : Nat) part part', es[k]? = some part → es'[k]? = some part' →
    ∀ {before env₁ env₁'}, C.moves before env env₁ →
      C.Holds part.bindings (v.typeOf ((i + k) :: p) part) (w.typeOf ((i + k) :: p) part') env₁ env₁'
        fun t => C.typed t ∧ found ((i + k) :: p) part

namespace Comparison.Walks
variable {C : Comparison} [C.Lawful] {v w : Walker} {found : Path → Expr → Prop} {p : Path} {i : Nat}
variable {e e' : Expr} {es es' : List Expr} {env env₁ env₁' : Env} {before : List Text}

theorem after (h : C.Walks v w found p i es es' env) (hm : C.moves before env env₁) :
    C.Walks v w found p i es es' env₁ :=
  fun k part part' hk hk' _ _ _ hm' => h k part part' hk hk' (Lawful.trans hm hm')

omit [C.Lawful] in
theorem head (h : C.Walks v w found p i (e :: es) (e' :: es') env) (hm : C.moves before env env₁) :
    C.Holds e.bindings (v.typeOf (i :: p) e) (w.typeOf (i :: p) e') env₁ env₁'
      fun t => C.typed t ∧ found (i :: p) e :=
  h 0 e e' rfl rfl hm

omit [C.Lawful] in
theorem tail (h : C.Walks v w found p i (e :: es) (e' :: es') env) : C.Walks v w found p (i + 1) es es' env := by
  intro k part part' hk hk' before env₁ env₁' hm
  rw [show i + 1 + k = i + (k + 1) by omega]
  exact h (k + 1) part part' hk hk' hm

end Comparison.Walks

/-! ## Rules -/

/-- What is left of the check of the function `f` with its body at `site` when the body has the type `t`. -/
def settleReturn (site : Path) (f : Function) (t : Ty) : Check Ty := do
  let ret := (← get).notes.returnOf site f.signature
  if ret = .any then modify fun env => { env with notes := env.notes.setReturn site t }
  else if ret ≠ t then refuse (.returnType ret t) f.signature.loc
  return t

/-- What is left of a call of the function whose closure is at position `i` when the arguments have been checked. -/
def finishCall (w : Walker) (i : Nat) (c : Closure) : Check Ty := do
  if ((← get).closure i).progress = .unchecked then w.checkClosure .call i
  return (← get).returnOf c

/-- What a call does once it has found the closure at position `i`, of a function with these parameters. -/
def callFound (w : Walker) (p : Path) (loc : Location) (callee : Text) (args : List Expr) (params : List (Text × Ty))
    (i : Nat) (c : Closure) : Check Ty := do
  if (← get).returnOf c = .any then refuse (.needsReturnType callee) loc
  if args.length ≠ params.length then refuse (.argumentCount callee params.length args.length) loc
  checkArguments w callee p 0 args params
  finishCall w i c

theorem callRule_apply (w : Walker) (p : Path) (loc : Location) (callee : Text) (args : List Expr) (env : Env) :
    callRule w p loc callee args env =
      match env.lookupFun? callee with
      | none => .error (.typing (.unknownFunction callee) loc) env
      | some i => callFound w p loc callee args (env.closure i).function.signature.params i (env.closure i) env := by
  rw [callRule, get_bind_apply]
  cases env.lookupFun? callee <;> rfl

/-- What is common to the runs at a call of the function whose closure is at position `i`. -/
structure Comparison.Callee (C : Comparison) (env env' : Env) (i : Nat) : Prop where
  params : C.foretold env →
    (env'.closure (C.position i)).function.signature.params = (env.closure i).function.signature.params
  unsettled : ∀ {fault}, C.awaited fault env → env.returnOf (env.closure i) = .any →
    env'.returnOf (env'.closure (C.position i)) = .any
  settled : env.returnOf (env.closure i) ≠ .any → ∀ {before env₁ env₁'}, C.moves before env env₁ →
    C.related env₁ env₁' → C.typed (env₁.returnOf (env.closure i)) ∧
      (C.foretold env₁ → env₁'.returnOf (env'.closure (C.position i)) = env₁.returnOf (env.closure i))
  progress : ∀ {before env₁ env₁'}, C.moves before env env₁ → C.related env₁ env₁' → C.foretold env₁ →
    (env₁'.closure (C.position i)).progress = (env₁.closure i).progress

namespace Comparison.Holds
variable {C : Comparison} [C.Lawful] {v w : Walker} {found : Path → Expr → Prop} {p : Path} {loc loc' : Location}
variable {env env' : Env}

theorem typed_unit : C.typed .unit := Lawful.typed_of_ne_any (by simp)

theorem bindParameters (hloc : C.places loc loc') {params : List (Text × Ty)}
    (hsees : ∀ param ∈ params, C.sees param.1)
    (hbind : ∀ param ∈ params, ∀ env env',
      C.Holds [param.1] (Check.bindVar param.1 param.2) (Check.bindVar param.1 param.2) env env' fun _ => True) :
    C.Holds (params.map (·.1)) (Typing.bindParameters loc params) (Typing.bindParameters loc' params) env env'
      fun _ => True := by
  induction params generalizing env env' with
  | nil => exact pure trivial
  | cons param params ih =>
    obtain ⟨hsee, hsees⟩ := List.forall_mem_cons.1 hsees
    obtain ⟨hfirst, hbind⟩ := List.forall_mem_cons.1 hbind
    refine get (check (fun hr hforetold => ?_) hloc fun _ => ?_)
    · rw [Lawful.hasVar hr hforetold hsee]
    · exact (hfirst env env').bind fun _ _ _ _ _ => ih hsees hbind

theorem settleReturn {site : Path} {f f' : Function} {t : Ty} {post : Ty → Prop}
    (hloc : C.places f.signature.loc f'.signature.loc)
    (hret : C.related env env' → env'.notes.returnOf site f'.signature = env.notes.returnOf site f.signature)
    (hsettle : env.notes.returnOf site f.signature = .any → C.related env env' →
      C.related { env with notes := env.notes.setReturn site t } { env' with notes := env'.notes.setReturn site t } ∧
        C.moves [] env { env with notes := env.notes.setReturn site t }) (h : post t) :
    C.Holds [] (Typing.settleReturn site f t) (Typing.settleReturn site f' t) env env' post := by
  refine get (congr (fun hr _ => by rw [hret hr]) ?_)
  refine ite (fun _ _ => Iff.rfl) (fun hany => ?_) fun _ => check (fun _ _ => Iff.rfl) hloc fun _ => pure h
  have hset : C.Holds [] (modify fun env => { env with notes := env.notes.setReturn site t })
      (modify fun env => { env with notes := env.notes.setReturn site t }) env env' fun _ => True :=
    change (hsettle hany)
  exact hset.bind fun _ _ _ _ _ => pure h

theorem checkFunction {site : Path} {f f' : Function} {names : List Text} {post post' : Ty → Prop}
    (hparams : C.Holds (f.signature.params.map (·.1)) (Typing.bindParameters f.signature.loc f.signature.params)
      (Typing.bindParameters f'.signature.loc f'.signature.params) env.enter env'.enter fun _ => True)
    (hbody : ∀ {before env₁ env₁'}, C.moves before env.enter env₁ →
      C.Holds names (v.typeOf site f.body) (w.typeOf site f'.body) env₁ env₁' post)
    (hsettle : ∀ t {env₁ env₁'}, C.moves [] env env₁ → post t →
      C.Holds [] (Typing.settleReturn site f t) (Typing.settleReturn site f' t) env₁ env₁' post') :
    C.Holds [] (Typing.checkFunction v site f) (Typing.checkFunction w site f') env env' post' :=
  (inNewFrame (hparams.bind fun _ _ _ hm _ => hbody hm)).bind fun t _ _ hm ht => hsettle t hm ht

theorem checkArguments (callee : Text) {i : Nat} {args args' : List Expr} {params : List (Text × Ty)}
    (hargs : List.Forall₂ (Expr.Alike C.places) args args') (hlength : args.length = params.length)
    (hparts : C.Walks v w found p i args args' env) :
    C.Holds (Expr.bindingsOf args) (Typing.checkArguments v callee p i args params)
      (Typing.checkArguments w callee p i args' params) env env' fun _ => FoundAll found p i args := by
  induction hargs generalizing i params env env' with
  | nil =>
    simp only [Typing.checkArguments]
    exact pure .nil
  | cons harg _ ih =>
    cases params with
    | nil => cases hlength
    | cons param params =>
      simp only [Typing.checkArguments]
      refine (hparts.head (Lawful.refl env)).bind fun t env₁ env₁' hm ht => ?_
      refine check (fun _ _ => Iff.rfl) harg.loc fun _ => ?_
      exact (ih (Nat.succ.inj hlength) (hparts.tail.after hm)).weaken fun _ hargs => .cons ht.2 hargs

theorem finishCall {i : Nat} {before : List Text} {env₁ env₁' : Env} (hcallee : C.Callee env env' i)
    (hret : env.returnOf (env.closure i) ≠ .any) (hm : C.moves before env env₁)
    (hcheck : C.Holds [] (v.checkClosure .call i) (w.checkClosure .call (C.position i)) env₁ env₁' fun _ => True) :
    C.Holds [] (Typing.finishCall v i (env.closure i))
      (Typing.finishCall w (C.position i) (env'.closure (C.position i))) env₁ env₁' C.typed := by
  have hreturned : ∀ {more env₂ env₂'}, C.moves more env₁ env₂ →
      C.Holds [] (MonadState.get >>= fun now => Pure.pure (now.returnOf (env.closure i)))
        (MonadState.get >>= fun now => Pure.pure (now.returnOf (env'.closure (C.position i)))) env₂ env₂' C.typed := by
    intro more env₂ env₂' hm'
    refine get (assuming fun hr => ?_)
    obtain ⟨htyped, hsame⟩ := hcallee.settled hret (Lawful.trans hm hm') hr
    refine congr (fun _ hforetold => ?_) (pure htyped)
    rw [hsame hforetold]
  refine get (ite (fun hr hforetold => ?_) (fun _ => ?_) fun _ => hreturned (Lawful.refl env₁))
  · rw [hcallee.progress hm hr hforetold]
  · exact hcheck.bind fun _ _ _ hm' _ => hreturned hm'

/-- A call has the body of its function checked unless it has been looked at before. It comes that far only if the
function has a return type. -/
theorem callRule (hloc : C.places loc loc') (callee : Text) {args args' : List Expr}
    (hargs : List.Forall₂ (Expr.Alike C.places) args args') (hparts : C.Walks v w found p 0 args args' env)
    (hcallee : ∀ i, C.related env env' → env.lookupFun? callee = some i → C.Callee env env' i)
    (hcheck : ∀ i, env.lookupFun? callee = some i → ∀ {before env₁ env₁'}, C.moves before env env₁ →
      C.Holds [] (v.checkClosure .call i) (w.checkClosure .call (C.position i)) env₁ env₁' fun _ => True) :
    C.Holds (Expr.bindingsOf args) (Typing.callRule v p loc callee args) (Typing.callRule w p loc' callee args')
      env env' fun t => C.typed t ∧ FoundAll found p 0 args ∧
        ∃ i, env.lookupFun? callee = some i ∧ env.returnOf (env.closure i) ≠ .any := by
  cases hi : env.lookupFun? callee with
  | none =>
    refine of_eq (z := Check.refuse (.unknownFunction callee) loc) ?_
      (congr (z := Check.refuse (.unknownFunction callee) loc') (fun hr hforetold => ?_) (refuse hloc _))
    · rw [callRule_apply, hi]
      rfl
    · rw [callRule_apply, Lawful.lookupFun? callee hr hforetold, hi]
      rfl
  | some i =>
    refine assuming fun hr => ?_
    have hfun := hcallee i hr hi
    refine of_eq (z := callFound v p loc callee args (env.closure i).function.signature.params i (env.closure i)) ?_
      (congr (z := callFound w p loc' callee args' (env.closure i).function.signature.params (C.position i)
        (env'.closure (C.position i))) (fun _ hforetold => ?_) (get ?_))
    · rw [callRule_apply, hi]
    · rw [callRule_apply, Lawful.lookupFun? callee hr hforetold, hi]
      dsimp only [Option.map_some]
      rw [hfun.params hforetold]
    refine require (fun hany _ hawaited => ?_) (fun hret _ hforetold => ?_) fun hret => ?_
    · exact ⟨hfun.unsettled hawaited hany, Lawful.refused hr hawaited hloc⟩
    · rw [(hfun.settled hret (Lawful.refl env) hr).2 hforetold]
      exact hret
    · rw [← hargs.length_eq]
      refine check (fun _ _ => Iff.rfl) hloc fun hlength => ?_
      refine (checkArguments callee hargs (Decidable.not_not.1 hlength) hparts).last fun _ env₁ env₁' hm hfound => ?_
      exact (finishCall hfun hret hm (hcheck i hi hm)).weaken fun t ht => ⟨ht, hfound, i, rfl, hret⟩

theorem declarationRule (id : Text) {known : Nat → Prop}
    (hcheck : ∀ i, env.lookupFun? id = some i →
      C.Holds [] (v.checkClosure .declaration i) (w.checkClosure .declaration (C.position i)) env env'
        fun _ => known i) :
    C.Holds [] (Typing.declarationRule v id) (Typing.declarationRule w id) env env'
      fun t => C.typed t ∧ ∀ i, env.lookupFun? id = some i → known i := by
  unfold Typing.declarationRule
  refine find C.position (registered_apply id) (registered_apply id) (Lawful.lookupFun? id) fun i hi => ?_
  refine (hcheck i hi).bind fun _ _ _ _ hknown => pure ⟨typed_unit, fun j hj => ?_⟩
  rwa [Option.some.inj (hj.symm.trans hi)]

theorem typeStatements {i : Nat} {last : Ty} {es es' : List Expr} (hlength : es.length = es'.length)
    (hlast : C.typed last) (hparts : C.Walks v w found p i es es' env) :
    C.Holds (Expr.bindingsOf es) (Typing.typeStatements v p i last es) (Typing.typeStatements w p i last es') env env'
      fun t => C.typed t ∧ FoundAll found p i es := by
  induction es generalizing i last es' env env' with
  | nil =>
    cases es' with
    | nil => exact pure ⟨hlast, .nil⟩
    | cons e' es' => cases hlength
  | cons e es ih =>
    cases es' with
    | nil => cases hlength
    | cons e' es' =>
      refine (hparts.head (Lawful.refl env)).bind fun t env₁ env₁' hm ht => ?_
      refine (ih (Nat.succ.inj hlength) ht.1 (hparts.tail.after hm)).weaken fun t' hes => ⟨hes.1, .cons ht.2 hes.2⟩

theorem registerAll {i : Nat} {functions functions' : List Function}
    (halike : List.Forall₂ (Function.Alike C.places) functions functions')
    (hhas : ∀ {env env'} id, C.related env env' → C.foretold env → env'.hasFun id = env.hasFun id)
    (hregister : ∀ (k : Nat) f f', functions[k]? = some f → functions'[k]? = some f' → f.Alike C.places f' →
      ∀ {env env'}, C.Holds [] (Check.register f.signature.name f ((i + k) :: p))
        (Check.register f.signature.name f' ((i + k) :: p)) env env' fun _ => True) :
    C.Holds [] (Typing.registerAll p i functions) (Typing.registerAll p i functions') env env' fun _ => True := by
  induction halike generalizing i env env' with
  | nil => exact pure trivial
  | @cons f f' fs fs' hf _ ih =>
    have hsig := hf.signature
    refine get ?_
    rw [← hsig.name]
    refine check (fun hr hforetold => by rw [hhas _ hr hforetold]) hsig.loc fun _ => ?_
    refine (hregister 0 f f' rfl rfl hf).bind fun _ _ _ _ _ => ih fun k g g' hk hk' hg => ?_
    rw [show i + 1 + k = i + (k + 1) by omega]
    exact hregister (k + 1) g g' hk hk' hg

theorem blockRule {functions functions' : List Function} {statements statements' : List Expr}
    (hfunctions : functions.length = functions'.length) (hstatements : statements.length = statements'.length)
    (hregister : C.Holds [] (Typing.registerAll p 0 functions) (Typing.registerAll p 0 functions') env.enter env'.enter
      fun _ => True)
    (hlink : ∀ {env₁ env₁'}, C.Holds [] Check.linkSiblings Check.linkSiblings env₁ env₁' fun _ => True)
    (hparts : ∀ {before env₁}, C.moves before env.enter env₁ →
      C.Walks v w found p functions.length statements statements' env₁) :
    C.Holds [] (Typing.blockRule v p functions statements) (Typing.blockRule w p functions' statements') env env'
      fun t => C.typed t ∧ FoundAll found p functions.length statements := by
  unfold Typing.blockRule
  rw [← hfunctions]
  exact inNewFrame (hregister.bind fun _ _ _ hm _ => hlink.bind fun _ _ _ hm' _ =>
    typeStatements hstatements typed_unit (hparts (Lawful.trans hm hm')))

theorem letRule (hloc : C.places loc loc') {id : Text} (hid : C.sees id) {value value' : Expr}
    (hbind : ∀ t, C.typed t → ∀ env env',
      C.Holds [id] (Check.bindVar id t) (Check.bindVar id t) env env' fun _ => True)
    (hparts : C.Walks v w found p 0 [value] [value'] env) :
    C.Holds (value.bindings ++ [id]) (Typing.letRule v p loc id value) (Typing.letRule w p loc' id value') env env'
      fun t => C.typed t ∧ FoundAll found p 0 [value] := by
  refine get (check (fun hr hforetold => ?_) hloc fun _ => ?_)
  · rw [Lawful.hasVar hr hforetold hid]
  · refine (hparts.head (Lawful.refl env)).bind fun t env₁ env₁' _ ht => ?_
    exact (hbind t ht.1 env₁ env₁').last fun _ _ _ _ _ => pure ⟨typed_unit, .cons ht.2 .nil⟩

theorem assignmentRule (hloc : C.places loc loc') (op : Operator) {lhs lhs' rhs rhs' : Expr}
    (hl : lhs.Alike C.places lhs') (hsees : ∀ loc id, lhs = .name loc id → C.sees id)
    (hname : ∀ q loc id, found q (.name loc id)) (hparts : C.Walks v w found p 0 [lhs, rhs] [lhs', rhs'] env) :
    C.Holds (lhs.bindings ++ rhs.bindings) (Typing.assignmentRule v p loc op lhs rhs)
      (Typing.assignmentRule w p loc' op lhs' rhs') env env' fun t => C.typed t ∧ FoundAll found p 0 [lhs, rhs] := by
  cases hl with
  | @name target target' id htarget =>
    refine (hparts.tail.head (Lawful.refl env)).last fun value env₁ env₁' _ ht => get ?_
    refine congr (fun hr hforetold => by rw [Lawful.lookupVar? hr hforetold (hsees _ _ rfl)]) ?_
    cases env₁.lookupVar? id with
    | none => exact refuse htarget _
    | some declared =>
      refine (note _ _).bind fun _ _ _ _ _ => check (fun _ _ => Iff.rfl) hloc fun _ => ?_
      exact pure ⟨typed_unit, .cons (hname _ _ _) (.cons ht.2 .nil)⟩
  | _ => exact refuse hloc _

theorem binaryRule (hloc : C.places loc loc') (op : Operator) {lhs lhs' rhs rhs' : Expr}
    (hl : lhs.Alike C.places lhs') (hsees : ∀ loc id, lhs = .name loc id → C.sees id)
    (hname : ∀ q loc id, found q (.name loc id)) (hparts : C.Walks v w found p 0 [lhs, rhs] [lhs', rhs'] env) :
    C.Holds (lhs.bindings ++ rhs.bindings) (Typing.binaryRule v p loc op lhs rhs)
      (Typing.binaryRule w p loc' op lhs' rhs') env env' fun t => C.typed t ∧ FoundAll found p 0 [lhs, rhs] := by
  refine ite (fun _ _ => Iff.rfl) (fun _ => assignmentRule hloc op hl hsees hname hparts) fun _ => ?_
  refine ite (fun _ _ => Iff.rfl) (fun _ => stop _) fun _ => ?_
  refine (hparts.head (Lawful.refl env)).bind fun l env₁ env₁' hm hleft => ?_
  refine (hparts.tail.head hm).last fun r _ _ _ hright => ?_
  cases h : op.resultType? l r with
  | none => exact refuse hloc _
  | some t => exact pure ⟨Lawful.typed_of_ne_any (Operator.resultType?_ne_any h), .cons hleft.2 (.cons hright.2 .nil)⟩

theorem unaryRule (hloc : C.places loc loc') (op : Operator) {operand operand' : Expr}
    (hparts : C.Walks v w found p 0 [operand] [operand'] env) :
    C.Holds operand.bindings (Typing.unaryRule v p loc op operand) (Typing.unaryRule w p loc' op operand') env env'
      fun t => C.typed t ∧ FoundAll found p 0 [operand] := by
  refine (hparts.head (Lawful.refl env)).last fun t env₁ env₁' _ ht => ?_
  refine require (fun h hr hawaited => ⟨h, Lawful.stopped hr hawaited⟩) (fun h _ _ => h) fun _ => ?_
  exact check (fun _ _ => Iff.rfl) hloc fun _ => pure ⟨ht.1, .cons ht.2 .nil⟩

theorem checkCondition (hloc : C.places loc loc') (statement : Conditional) {i : Nat} {test test' : Expr}
    (h : C.Holds test.bindings (v.typeOf (i :: p) test) (w.typeOf (i :: p) test') env env'
      fun t => C.typed t ∧ found (i :: p) test) :
    C.Holds test.bindings (Typing.checkCondition v p i statement loc test)
      (Typing.checkCondition w p i statement loc' test') env env' fun _ => found (i :: p) test :=
  h.last fun _ _ _ _ ht => check (fun _ _ => Iff.rfl) hloc fun _ => pure ht.2

/-- A statement with a condition and one body. -/
theorem conditional (hloc : C.places loc loc') (statement : Conditional) {test test' body body' : Expr}
    (hparts : C.Walks v w found p 0 [test, body] [test', body'] env) :
    C.Holds (test.bindings ++ body.bindings)
      (do Typing.checkCondition v p 0 statement loc test; let _ ← v.typeOf (1 :: p) body; return Ty.unit)
      (do Typing.checkCondition w p 0 statement loc' test'; let _ ← w.typeOf (1 :: p) body'; return Ty.unit) env env'
      fun t => C.typed t ∧ FoundAll found p 0 [test, body] := by
  refine (checkCondition hloc statement (hparts.head (Lawful.refl env))).bind fun _ env₁ env₁' hm ht => ?_
  exact (hparts.tail.head hm).last fun _ _ _ _ hb => pure ⟨typed_unit, .cons ht (.cons hb.2 .nil)⟩

theorem forRule {varLoc varLoc' : Location} (hloc : C.places loc loc') {var var' : Text}
    {start start' test test' step step' body body' : Expr}
    (hparts : C.Walks v w found p 0 [.letIn varLoc var start, test, step, body]
      [.letIn varLoc' var' start', test', step', body'] env.enter) :
    C.Holds [] (Typing.forRule v p loc varLoc var start test step body)
      (Typing.forRule w p loc' varLoc' var' start' test' step' body') env env'
      fun t => C.typed t ∧ FoundAll found p 0 [.letIn varLoc var start, test, step, body] := by
  exact (inNewFrame <|
    (hparts.head (Lawful.refl _)).bind fun _ _ _ h₁ hs =>
    (checkCondition hloc .forStatement (hparts.tail.head h₁)).bind fun _ _ _ h₂ ht =>
    (hparts.tail.tail.head (Lawful.trans h₁ h₂)).bind fun _ _ _ h₃ hi =>
    (hparts.tail.tail.tail.head (Lawful.trans (Lawful.trans h₁ h₂) h₃)).bind fun _ _ _ _ hb =>
    pure (.cons hs.2 (.cons ht (.cons hi.2 (.cons hb.2 .nil))))).bind fun _ _ _ _ h => pure ⟨typed_unit, h⟩

/-- What holds of the walks of its parts holds of a node, unless its rule changes scopes. The variable of an assignment
is not walked. -/
theorem rule {e e' : Expr} (he : e.Alike C.places e') (hscope : e.changesScope = false)
    (hsees : ∀ loc id, e = .name loc id ∨ e.children[0]? = some (.name loc id) → C.sees id)
    (hname : ∀ q loc id, found q (.name loc id))
    (hparts : C.Walks v w found p 0 e.children e'.children (bif e.opensFrame then env.enter else env)) :
    C.Holds e.bindings (Typing.rule v p e) (Typing.rule w p e') env env'
      fun t => C.typed t ∧ FoundAll found p 0 e.children := by
  cases he with
  | @literal loc loc' value hloc =>
    cases value with
    | unit => exact stop _
    | _ => exact pure ⟨Lawful.typed_of_ne_any (by simp [Literal.ty]), .nil⟩
  | @name loc loc' id hloc =>
    refine get (assuming fun hr => congr (fun _ hforetold => by
      rw [Lawful.lookupVar? hr hforetold (hsees loc id (.inl rfl))]) ?_)
    cases h : env.lookupVar? id with
    | none => exact refuse hloc _
    | some t => exact pure ⟨Lawful.typed_of_lookupVar? hr h, .nil⟩
  | unary hloc h => exact unaryRule hloc _ hparts
  | binary hloc hl hr =>
    exact binaryRule hloc _ hl (fun loc id h => hsees loc id (.inr (congrArg some h))) hname hparts
  | ifThen hloc ht hb | whileLoop hloc ht hb => exact conditional hloc _ hparts
  | ifElse hloc ht hb he =>
    refine (checkCondition hloc _ (hparts.head (Lawful.refl env))).bind fun _ env₁ env₁' hm ht => ?_
    refine (hparts.tail.head hm).bind fun t env₂ env₂' hm' hb => ?_
    refine (hparts.tail.tail.head (Lawful.trans hm hm')).last fun t' _ _ _ he => ?_
    exact check (fun _ _ => Iff.rfl) hloc fun _ => pure ⟨hb.1, .cons ht (.cons hb.2 (.cons he.2 .nil))⟩
  | forLoop hloc hvar hs ht hi hb => exact forRule hloc hparts
  | letIn | block | call | funDecl => cases hscope

/-- The walk of a node notes its type. -/
theorem noted {e e' : Expr} {names : List Text} {post : Ty → Prop}
    (h : C.Holds names (Typing.rule v p e) (Typing.rule w p e') env env' post) :
    C.Holds names (do let t ← Typing.rule v p e; Check.note p t; return t)
      (do let t ← Typing.rule w p e'; Check.note p t; return t) env env' post :=
  h.last fun t _ _ _ ht => (note p t).bind fun _ _ _ _ _ => pure ht

end Comparison.Holds
/-! ## Runs in the same environment -/

/-- The comparison of two runs that are in the same environment all the time, or of one run with itself, up to a point
at which the first run is given up. -/
def Comparison.alone (holds : Env → Prop) (moves breaks : List Text → Env → Env → Prop) : Comparison where
  related env env' := holds env ∧ env' = env
  moves := moves
  breaks := breaks
  awaited fault _ := fault ≠ .internal .nestedTooDeeply
  faults fault fault' env env' := fault' = fault ∧ env' = env

/-- What it takes to follow one run. -/
structure Comparison.Kept (holds : Env → Prop) (moves breaks : List Text → Env → Env → Prop) : Prop where
  refl : ∀ env, moves [] env env
  trans : ∀ {names more env env₁ env₂}, moves names env env₁ → moves more env₁ env₂ → moves (names ++ more) env env₂
  breaks_refl : ∀ env, breaks [] env env
  breaks_append : ∀ {names env env₁} more, breaks names env env₁ → breaks (names ++ more) env env₁
  breaks_after : ∀ {names more env env₁ env₂}, moves names env env₁ → breaks more env₁ env₂ →
    breaks (names ++ more) env env₂
  note : ∀ {env} p t, holds env → holds { env with notes := env.notes.setType p t } ∧
    moves [] env { env with notes := env.notes.setType p t }
  enter : ∀ {env}, holds env → holds env.enter
  leave : ∀ {names env env₁}, holds env → moves names env.enter env₁ → holds env₁ →
    moves [] env env₁.leave ∧ holds env₁.leave
  breaks_leave : ∀ {names env env₁}, breaks names env.enter env₁ → breaks [] env env₁.leave

section
variable {holds : Env → Prop} {moves breaks : List Text → Env → Env → Prop}

/-- Coming back from another environment when both runs are in the same one. -/
theorem Comparison.within_alone {holds' : Env → Prop} {moves' breaks' : List Text → Env → Env → Prop} {env inner : Env}
    {back : Env → Env} (hinner : holds' inner)
    (hmoves : ∀ {names env₁}, moves' names inner env₁ → holds' env₁ → moves [] env (back env₁) ∧ holds (back env₁))
    (hbreaks : ∀ {names env₁}, breaks' names inner env₁ → breaks [] env (back env₁)) :
    (alone holds moves breaks).Within (alone holds' moves' breaks') env env inner inner back back where
  related := ⟨hinner, rfl⟩
  moves := by
    rintro names env₁ _ hm ⟨hholds₁, rfl⟩
    exact ⟨(hmoves hm hholds₁).1, (hmoves hm hholds₁).2, rfl⟩
  breaks := hbreaks
  foretold _ := trivial
  awaited := id
  faults := by
    rintro fault _ env₁ _ ⟨rfl, rfl⟩
    exact ⟨rfl, rfl⟩

theorem Comparison.alone_lawful (h : Kept holds moves breaks) : (alone holds moves breaks).Lawful where
  refl := h.refl
  trans := h.trans
  breaks_refl _ := h.breaks_refl _
  breaks_append := h.breaks_append
  breaks_after := h.breaks_after
  foretold_of_moves _ _ := trivial
  foretold_of_breaks _ _ := trivial
  refused := by
    rintro cause loc _ env _ ⟨-, rfl⟩ - rfl
    exact ⟨rfl, rfl⟩
  stopped := by
    rintro cause env _ ⟨-, rfl⟩ -
    exact ⟨rfl, rfl⟩
  note := by
    rintro env _ p t ⟨hholds, rfl⟩
    exact ⟨⟨(h.note p t hholds).1, rfl⟩, (h.note p t hholds).2⟩
  enter := by
    rintro env _ ⟨hholds, rfl⟩
    exact within_alone (h.enter hholds) (fun hm hholds₁ => h.leave hholds hm hholds₁) h.breaks_leave
  lookupVar? := by
    rintro env _ id ⟨-, rfl⟩ - -
    rfl
  hasVar := by
    rintro env _ id ⟨-, rfl⟩ - -
    rfl
  lookupFun? := by
    rintro env _ id ⟨-, rfl⟩ -
    exact Option.map_id'.symm
  typed_of_ne_any _ := trivial
  typed_of_lookupVar? _ _ := trivial

theorem Comparison.callee_alone {env env' : Env} {i : Nat} (hr : (alone holds moves breaks).related env env') :
    (alone holds moves breaks).Callee env env' i := by
  obtain ⟨-, rfl⟩ := hr
  refine ⟨fun _ => rfl, fun _ h => h, fun _ _ _ _ _ hr => ⟨trivial, fun _ => ?_⟩, fun _ hr _ => ?_⟩
  · rw [hr.2]
    rfl
  · rw [hr.2]
    rfl

/-- What the comparison of a run with itself says about the run. -/
theorem Comparison.holds_alone_iff {α : Type} {names : List Text} {x : Check α} {env : Env} {post : α → Prop} :
    (alone holds moves breaks).Holds names x x env env post ↔ (holds env →
      match x env with
      | .ok a env₁ => moves names env env₁ ∧ post a ∧ holds env₁
      | .error _ env₁ => breaks names env env₁) := by
  cases hrun : x env with
  | ok a env₁ =>
    refine ⟨fun h hholds => ?_, fun h hr => ?_⟩
    · have h := h ⟨hholds, rfl⟩
      rw [hrun] at h
      obtain ⟨hm, hpost, _, hr₁, -⟩ := h
      exact ⟨hm, hpost, hr₁.1⟩
    · rw [hrun]
      obtain ⟨hm, hpost, hholds₁⟩ := h hr.1
      exact ⟨hm, hpost, env₁, ⟨hholds₁, rfl⟩, fun _ => rfl⟩
  | error fault env₁ =>
    refine ⟨fun h hholds => ?_, fun h hr => ?_⟩
    · have h := h ⟨hholds, rfl⟩
      rw [hrun] at h
      exact h.1
    · rw [hrun]
      exact ⟨h hr.1, fun _ => ⟨fault, env₁, rfl, rfl, rfl⟩⟩

end

theorem Comparison.Walks.of_same {C : Comparison} {v w : Walker} {found : Path → Expr → Prop} {p : Path} {i : Nat}
    {es : List Expr} {env : Env} (h : ∀ (k : Nat) part, es[k]? = some part → ∀ {before env₁ env₁'},
      C.moves before env env₁ → C.Holds part.bindings (v.typeOf ((i + k) :: p) part) (w.typeOf ((i + k) :: p) part)
        env₁ env₁' fun t => C.typed t ∧ found ((i + k) :: p) part) : C.Walks v w found p i es es env := by
  intro k part part' hk hk'
  obtain rfl := Option.some.inj (hk.symm.trans hk')
  exact h k part hk

end Typing
end FrontEnd
