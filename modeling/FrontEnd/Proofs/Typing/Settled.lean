import FrontEnd.Proofs.Scope
import FrontEnd.Proofs.Typing.Declarative

/-!
# Settled return types

* `Expr.settle` : a tree with the return types that some notes settle in the place of those that it states;
* `Env.scopes` : what the frames of an environment mean declaratively, with the signatures of the functions settled;
  `Env.Grows.scopesOf_eq` : they stay what they are while an environment grows;
* `Env.Agrees` : whether some notes settle what is settled in an environment.
-/

namespace FrontEnd

/-- `s` with the return type that the notes settle for the function whose body is at `site`. -/
def Signature.settle (n : Notes) (site : Path) (s : Signature) : Signature := { s with ret := n.returnOf site s }

namespace Expr

mutual

/-- The tree whose root is at a path, with settled return types. -/
def settle (n : Notes) : Path → Expr → Expr
  | _, literal loc value => literal loc value
  | _, name loc id => name loc id
  | p, unary loc op operand => unary loc op (settle n (0 :: p) operand)
  | p, binary loc op lhs rhs => binary loc op (settle n (0 :: p) lhs) (settle n (1 :: p) rhs)
  | p, letIn loc id value => letIn loc id (settle n (0 :: p) value)
  | p, ifThen loc test body => ifThen loc (settle n (0 :: p) test) (settle n (1 :: p) body)
  | p, ifElse loc test body orelse =>
    ifElse loc (settle n (0 :: p) test) (settle n (1 :: p) body) (settle n (2 :: p) orelse)
  | p, whileLoop loc test body => whileLoop loc (settle n (0 :: p) test) (settle n (1 :: p) body)
  | p, forLoop loc varLoc var start test step body =>
    forLoop loc varLoc var (settle n (0 :: 0 :: p) start) (settle n (1 :: p) test) (settle n (2 :: p) step)
      (settle n (3 :: p) body)
  | p, block loc functions statements =>
    block loc (settleFunctions n p 0 functions) (settleAll n p functions.length statements)
  | p, call loc callee args => call loc callee (settleAll n p 0 args)
  | _, funDecl loc id => funDecl loc id

/-- Several trees, the parts of the node at `p` from position `i` on, with settled return types. -/
def settleAll (n : Notes) (p : Path) : Nat → List Expr → List Expr
  | _, [] => []
  | i, e :: es => settle n (i :: p) e :: settleAll n p (i + 1) es

/-- The functions of the block at `p` from position `i` on, with settled return types. -/
def settleFunctions (n : Notes) (p : Path) : Nat → List Function → List Function
  | _, [] => []
  | i, ⟨s, body⟩ :: fs => ⟨s.settle n (i :: p), settle n (i :: p) body⟩ :: settleFunctions n p (i + 1) fs

end

mutual

/-- Notes that settle what is stated change no tree. -/
theorem settle_eq_self {n : Notes} (hn : ∀ site s, Signature.settle n site s = s) (p : Path) :
    (e : Expr) → settle n p e = e
  | literal .. | name .. | funDecl .. => by simp only [settle]
  | unary .. | binary .. | letIn .. | ifThen .. | ifElse .. | whileLoop .. | forLoop .. => by
    simp only [settle, settle_eq_self hn _ _]
  | block _ functions statements => by
    rw [settle, settleFunctions_eq_self hn p 0 functions, settleAll_eq_self hn p _ statements]
  | call _ _ args => by rw [settle, settleAll_eq_self hn p 0 args]

theorem settleAll_eq_self {n : Notes} (hn : ∀ site s, Signature.settle n site s = s) (p : Path) (i : Nat) :
    (es : List Expr) → settleAll n p i es = es
  | [] => rfl
  | e :: es => by rw [settleAll, settle_eq_self hn _ e, settleAll_eq_self hn p (i + 1) es]

theorem settleFunctions_eq_self {n : Notes} (hn : ∀ site s, Signature.settle n site s = s) (p : Path) (i : Nat) :
    (fs : List Function) → settleFunctions n p i fs = fs
  | [] => rfl
  | ⟨s, body⟩ :: fs => by rw [settleFunctions, hn, settle_eq_self hn _ body, settleFunctions_eq_self hn p (i + 1) fs]

end

theorem settleAll_length (n : Notes) (p : Path) (i : Nat) (es : List Expr) :
    (settleAll n p i es).length = es.length := by
  induction es generalizing i with
  | nil => rfl
  | cons e es ih => rw [settleAll, List.length_cons, List.length_cons, ih]

/-- Declarations are what they were among settled statements. -/
theorem funDecl_mem_settleAll {n : Notes} {p : Path} {i : Nat} {es : List Expr} {loc : Location} {id : Text}
    (h : funDecl loc id ∈ es) : funDecl loc id ∈ settleAll n p i es := by
  induction es generalizing i with
  | nil => cases h
  | cons e es ih =>
    rw [settleAll]
    rcases List.mem_cons.1 h with rfl | h
    · rw [settle]
      exact List.mem_cons_self
    · exact .tail _ (ih h)

theorem declared?_settle (n : Notes) (p : Path) (e : Expr) : Judge.declared? (settle n p e) = Judge.declared? e := by
  cases e <;> rfl

/-- The check that stands for the declaration of a function, when its name is that of no function before it. -/
theorem lookup_declarations {n : Notes} {p : Path} {fs : List Function} {i k : Nat} {f : Function}
    (hk : fs[k]? = some f) (hd : ∀ j g, fs[j]? = some g → g.signature.name = f.signature.name → j = k) :
    (Judge.declarations (settleFunctions n p i fs)).lookup f.signature.name =
      some (Judge.declaration (f.signature.settle n ((i + k) :: p))
        (Judge.typeOf (settle n ((i + k) :: p) f.body))) := by
  induction fs generalizing i k with
  | nil => simp at hk
  | cons g fs ih =>
    obtain ⟨s, body⟩ := g
    rw [settleFunctions, Judge.declarations, List.lookup_cons]
    cases k with
    | zero =>
      cases Option.some.inj hk
      rw [show s.name == (s.settle n (i :: p)).name from beq_self_eq_true _]
      rfl
    | succ k =>
      have hne : f.signature.name ≠ s.name := fun heq => absurd (hd 0 _ rfl heq.symm) (by omega)
      rw [show (f.signature.name == (s.settle n (i :: p)).name) = false from beq_eq_false_iff_ne.2 hne]
      dsimp only
      rw [ih hk fun j g hj hg => by simpa using hd (j + 1) g hj hg, show i + 1 + k = i + (k + 1) by omega]

end Expr

/-! ## Scopes of frames -/

/-- The signature of a closure's function, settled. -/
def Closure.settled (n : Notes) (c : Closure) : Signature := c.function.signature.settle n c.site

/-- The declarative check of a closure's function. -/
def Closure.declaration (n : Notes) (c : Closure) : Judge Ty :=
  Judge.declaration (c.settled n) (Judge.typeOf (c.function.body.settle n c.site))

namespace Env

/-- What frames of an environment mean declaratively. -/
def scopesOf (n : Notes) (env : Env) (frames : List Frame) : List Scope :=
  frames.map fun f => ⟨f.vars, f.funs.map fun i => (env.closure i).settled n⟩

/-- What the open frames mean declaratively. -/
def scopes (n : Notes) (env : Env) : List Scope := env.scopesOf n env.frames

theorem scopesOf_outline (n : Notes) (env : Env) (frames : List Frame) :
    env.scopesOf n (Frame.outline frames) = Scope.outline (env.scopesOf n frames) := by
  cases frames <;> rfl

theorem scopesOf_congr {n : Notes} {env env' : Env} {frames : List Frame}
    (h : ∀ f ∈ frames, ∀ id i, f.funs.find? id = some i → (env'.closure i).settled n = (env.closure i).settled n) :
    env'.scopesOf n frames = env.scopesOf n frames := by
  refine List.map_congr_left fun f hf => ?_
  rw [Dictionary.map_congr (h f hf)]

theorem Grows.settled_eq {n : Notes} {env env' : Env} (h : Grows env env') {i : Nat} {c : Closure}
    (hc : env.closures[i]? = some c) : (env'.closure i).settled n = (env.closure i).settled n := by
  obtain ⟨progress, hc'⟩ := h.closures i c hc
  rw [closure_eq hc, closure_eq hc']
  rfl

theorem Linked.exists_closure {env : Env} (h : Linked env) {f : Frame} (hf : f ∈ env.frames) {id : Text} {i : Nat}
    (hi : f.funs.find? id = some i) : ∃ c, env.closures[i]? = some c := by
  obtain ⟨inner, fs, hfs⟩ := List.append_of_mem hf
  obtain ⟨c, hc, -⟩ := h.captured f fs ⟨inner, hfs.symm⟩ id i hi
  exact ⟨c, hc⟩

theorem Grows.scopesOf_eq {n : Notes} {env env' : Env} (h : Grows env env') (hl : Linked env) {frames : List Frame}
    (hs : frames ⊆ env.frames) : env'.scopesOf n frames = env.scopesOf n frames := by
  refine scopesOf_congr fun f hf id i hi => ?_
  obtain ⟨c, hc⟩ := hl.exists_closure (hs hf) hi
  exact h.settled_eq hc

theorem Grows.scopes_restore {n : Notes} {env env' : Env} (h : Grows env env') (hl : Linked env) :
    Env.scopes n { env' with frames := env.frames } = env.scopes n :=
  h.scopesOf_eq hl (List.Subset.refl _)

theorem findSome?_vars_scopes (n : Notes) (env : Env) (id : Text) :
    (env.scopes n).findSome? (·.vars.find? id) = env.lookupVar? id := by
  unfold scopes scopesOf lookupVar?
  rw [List.findSome?_map]
  rfl

theorem findSome?_funs_scopes (n : Notes) (env : Env) (id : Text) :
    (env.scopes n).findSome? (·.funs.find? id) = (env.lookupFun? id).map fun i => (env.closure i).settled n := by
  unfold scopes scopesOf lookupFun?
  rw [List.findSome?_map]
  induction env.frames with
  | nil => rfl
  | cons f fs ih =>
    rw [List.findSome?_cons, List.findSome?_cons, Function.comp, Dictionary.find?_map]
    cases f.funs.find? id with
    | none => exact ih
    | some i => rfl

theorem any_contains_vars_scopes (n : Notes) (env : Env) (id : Text) :
    (env.scopes n).head?.any (·.vars.contains id) = env.hasVar id := by
  unfold scopes scopesOf hasVar
  cases env.frames <;> rfl

theorem any_contains_funs_scopes (n : Notes) (env : Env) (id : Text) :
    (env.scopes n).head?.any (·.funs.contains id) = env.hasFun id := by
  unfold scopes scopesOf hasFun
  cases env.frames with
  | nil => rfl
  | cons f fs => exact Dictionary.contains_map _ _ _

/-! ## Agreement -/

/-- Whether the notes settle the return types that are settled in an environment as they are there. -/
def Agrees (n : Notes) (env : Env) : Prop :=
  ∀ (i : Nat) (c : Closure), env.closures[i]? = some c → env.returnOf c ≠ .any → (c.settled n).ret = env.returnOf c

theorem Agrees.of_grows {n : Notes} {env env' : Env} (h : Agrees n env') (hg : Grows env env') : Agrees n env := by
  intro i c hc hr
  obtain ⟨progress, hc'⟩ := hg.closures i c hc
  have hr' := hg.returns i c hc hr
  have := h i _ hc' (show env'.returnOf c ≠ .any by rwa [hr'])
  exact this.trans hr'

theorem agrees_notes (env : Env) : Agrees env.notes env := fun _ _ _ _ => rfl

end Env
end FrontEnd
