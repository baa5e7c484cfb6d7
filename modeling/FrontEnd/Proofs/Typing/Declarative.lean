import FrontEnd.Proofs.Dictionary
import FrontEnd.Syntax
import FrontEnd.Typing.Operators
import Mathlib.Data.Option.Basic

/-!
# Declarative typing

The types of trees by one walk over them. A call is typed by the signature of its function, and the body of a function
is checked once, where the function is declared. There are no closures and there is no progress to keep.

* `Scope`, `Judge` : the names bound in one block, loop or function body, and a step of typing, which may fail;
* `Judge.inNewScope`, `Judge.inDeclaringScopes` : steps in a scope of their own, and in the scopes of a declaration;
* `Judge.typeOf` : the type of a tree, `Judge.typeOf?` : the type of a whole program;
* `Judge.Keeps` : typing changes no scope but for variables of the innermost one.
-/

namespace FrontEnd

/-- The variables, and the functions with what they state, of one block, loop or function body. -/
structure Scope where
  vars : Dictionary Ty := ∅
  funs : Dictionary Signature := ∅

/-- Scopes without the variables of the innermost one, which is in front. -/
def Scope.outline : List Scope → List Scope
  | [] => []
  | s :: ss => { s with vars := ∅ } :: ss

/-- A step of typing in some scopes. -/
abbrev Judge := StateT (List Scope) Option

namespace Judge
variable {α β : Type}

/-! ## Scopes -/

/-- `judge` in scopes made out of those that are open, which are as before afterwards. -/
def within (change : List Scope → List Scope) (judge : Judge α) : Judge α := fun scopes =>
  (judge (change scopes)).map fun (a, _) => (a, scopes)

/-- `judge` in a scope of its own. -/
def inNewScope (judge : Judge α) : Judge α := within ({} :: ·) judge

/-- `judge` in the scopes that are open but without the variables of the innermost one. -/
def inDeclaringScopes (judge : Judge α) : Judge α := within Scope.outline judge

/-- Changes the innermost scope. -/
def modifyInnermost (change : Scope → Scope) : Judge Unit := fun scopes =>
  match scopes with
  | [] => none
  | s :: ss => some ((), change s :: ss)

/-- Fails if the innermost scope binds the variable `id`. -/
def requireNoVar (id : Text) : Judge Unit := do guard !((← get).head?.any (·.vars.contains id))

/-- Fails if the innermost scope has a function `id`. -/
def requireNoFun (id : Text) : Judge Unit := do guard !((← get).head?.any (·.funs.contains id))

/-- Binds a variable in the innermost scope. -/
def bindVar (id : Text) (t : Ty) : Judge Unit := modifyInnermost fun s => { s with vars := s.vars.insert id t }

/-- Binds a function in the innermost scope. -/
def bindFun (f : Signature) : Judge Unit := modifyInnermost fun s => { s with funs := s.funs.insert f.name f }

/-- The type of the innermost variable `id`. -/
def variableType (id : Text) : Judge Ty := do StateT.lift ((← get).findSome? (·.vars.find? id))

/-- What the innermost function `id` states. -/
def signature (id : Text) : Judge Signature := do StateT.lift ((← get).findSome? (·.funs.find? id))

/-! ## Rules -/

/-- Binds parameters, whose names must differ. -/
def bindParameters : List (Text × Ty) → Judge Unit
  | [] => pure ()
  | (id, t) :: params => do
    requireNoVar id
    bindVar id t
    bindParameters params

/-- Binds the functions of a block, whose names must differ. -/
def bindFunctions : List Signature → Judge Unit
  | [] => pure ()
  | f :: fs => do
    requireNoFun f.name
    bindFun f
    bindFunctions fs

/-- The body of a function, with the parameters in a scope of their own. Its type must be that of the result. -/
def body (f : Signature) (type : Judge Ty) : Judge Ty := do
  let t ← inNewScope do
    bindParameters f.params
    type
  guard (t = f.ret)
  return t

/-- The declaration of a function. -/
def declaration (f : Signature) (type : Judge Ty) : Judge Ty := inDeclaringScopes (body f type)

/-- A binding: the name must be free in the innermost scope before its value is typed. -/
def binding (id : Text) (value : Judge Ty) : Judge Ty := do
  requireNoVar id
  let t ← value
  bindVar id t
  return .unit

/-- An assignment: the value is typed before the variable is looked up. -/
def assignment (op : Operator) (lhs : Expr) (value : Judge Ty) : Judge Ty :=
  match lhs with
  | .name _ id => do
    let value ← value
    let declared ← variableType id
    guard (op.acceptsValue declared value)
    return .unit
  | _ => failure

/-- A condition. -/
def condition (test : Judge Ty) : Judge Unit := do
  let t ← test
  guard (t = .bool)

/-- The name in a declaration. -/
def declared? : Expr → Option Text
  | .funDecl _ id => some id
  | _ => none

/-- A statement: what it declares is checked, and anything else is typed. -/
def statement (declarations : List (Text × Judge Ty)) (e : Expr) (type : Judge Ty) : Judge Ty :=
  match declared? e with
  | none => type
  | some id => do
    let _ ← (declarations.lookup id).getD failure
    return .unit

mutual

/-- The type of a tree. -/
def typeOf : Expr → Judge Ty
  | .literal _ .unit => failure
  | .literal _ value => return value.ty
  | .name _ id => variableType id
  | .unary _ op operand => do
    let t ← typeOf operand
    guard (op.isUnary && op.acceptsOperand t)
    return t
  | .binary _ op lhs rhs =>
    if op.isAssignment then assignment op lhs (typeOf rhs)
    else do
      let l ← typeOf lhs
      let r ← typeOf rhs
      StateT.lift (op.resultType? l r)
  | .letIn _ id value => binding id (typeOf value)
  | .ifThen _ test body => do
    condition (typeOf test)
    let _ ← typeOf body
    return .unit
  | .ifElse _ test body orelse => do
    condition (typeOf test)
    let t ← typeOf body
    let t' ← typeOf orelse
    guard (t = t')
    return t
  | .whileLoop _ test body => do
    condition (typeOf test)
    let _ ← typeOf body
    return .unit
  | .forLoop _ _ var start test step body => do
    inNewScope do
      let _ ← binding var (typeOf start)
      condition (typeOf test)
      let _ ← typeOf step
      let _ ← typeOf body
    return .unit
  | .block _ functions statements =>
    inNewScope do
      bindFunctions (functions.map (·.signature))
      typeStatements (declarations functions) .unit statements
  | .call _ callee args => do
    let f ← signature callee
    guard (args.length = f.params.length)
    checkArguments args f.params
    return f.ret
  | .funDecl .. => failure

/-- The type of the last of several statements; `last` when there are none. -/
def typeStatements (declarations : List (Text × Judge Ty)) (last : Ty) : List Expr → Judge Ty
  | [] => pure last
  | e :: es => do
    let t ← statement declarations e (typeOf e)
    typeStatements declarations t es

/-- The checks of the declarations of several functions, by their names. -/
def declarations : List Function → List (Text × Judge Ty)
  | [] => []
  | ⟨f, body⟩ :: fs => (f.name, declaration f (typeOf body)) :: declarations fs

/-- Arguments against parameters. -/
def checkArguments : List Expr → List (Text × Ty) → Judge Unit
  | arg :: args, (_, expected) :: params => do
    let t ← typeOf arg
    guard (t = expected)
    checkArguments args params
  | _, _ => pure ()

end

/-- The type of a whole program. -/
def typeOf? (program : Expr) : Option Ty := (typeOf program []).map (·.1)

/-! ## What typing keeps -/

/-- A step that changes no scope but for variables of the innermost one. -/
def Keeps (judge : Judge α) : Prop :=
  ∀ scopes a scopes', judge scopes = some (a, scopes') → Scope.outline scopes' = Scope.outline scopes

theorem bind_apply (judge : Judge α) (next : α → Judge β) (scopes : List Scope) :
    (judge >>= next) scopes = (judge scopes).bind fun (a, scopes') => next a scopes' := by
  show (do let (a, scopes') ← judge scopes; next a scopes') = _
  cases judge scopes <;> rfl

theorem within_eq_some {change : List Scope → List Scope} {judge : Judge α} {scopes scopes' : List Scope} {a : α}
    (h : judge (change scopes) = some (a, scopes')) : within change judge scopes = some (a, scopes) := by
  rw [within, h]
  rfl

theorem within_eq_none_iff {change : List Scope → List Scope} {judge : Judge α} {scopes : List Scope} :
    within change judge scopes = none ↔ judge (change scopes) = none :=
  Option.map_eq_none_iff

theorem scopes_eq_of_within {change : List Scope → List Scope} {judge : Judge α} {scopes scopes' : List Scope} {a : α}
    (h : within change judge scopes = some (a, scopes')) : scopes' = scopes := by
  obtain ⟨_, -, heq⟩ := Option.map_eq_some_iff.1 h
  cases heq
  rfl

theorem guard_apply (p : Prop) [Decidable p] (scopes : List Scope) :
    (guard p : Judge Unit) scopes = if p then some ((), scopes) else none := by
  show (if p then pure () else failure : Judge Unit) scopes = _
  split <;> rfl

theorem guard_bind_apply (p : Prop) [Decidable p] (next : Unit → Judge β) (scopes : List Scope) :
    (guard p >>= next) scopes = if p then next () scopes else none := by
  rw [bind_apply, guard_apply]
  split <;> rfl

theorem requireNoVar_bind_apply (id : Text) (next : Unit → Judge β) (scopes : List Scope) :
    (requireNoVar id >>= next) scopes = if scopes.head?.any (·.vars.contains id) then none else next () scopes := by
  rw [bind_apply]
  show ((guard _ : Judge Unit) scopes).bind _ = _
  rw [guard_apply]
  cases scopes.head?.any (·.vars.contains id) <;> rfl

theorem requireNoFun_bind_apply (id : Text) (next : Unit → Judge β) (scopes : List Scope) :
    (requireNoFun id >>= next) scopes = if scopes.head?.any (·.funs.contains id) then none else next () scopes := by
  rw [bind_apply]
  show ((guard _ : Judge Unit) scopes).bind _ = _
  rw [guard_apply]
  cases scopes.head?.any (·.funs.contains id) <;> rfl

theorem lift_bind_apply (a : Option α) (next : α → Judge β) (scopes : List Scope) :
    ((StateT.lift a : Judge α) >>= next) scopes = a.bind fun a => next a scopes := by
  rw [bind_apply]
  cases a <;> rfl

theorem variableType_bind_apply (id : Text) (next : Ty → Judge β) (scopes : List Scope) :
    (variableType id >>= next) scopes = (scopes.findSome? (·.vars.find? id)).bind fun t => next t scopes := by
  rw [← lift_bind_apply]
  rfl

theorem signature_bind_apply (id : Text) (next : Signature → Judge β) (scopes : List Scope) :
    (signature id >>= next) scopes = (scopes.findSome? (·.funs.find? id)).bind fun f => next f scopes := by
  rw [← lift_bind_apply]
  rfl

theorem keeps_pure (a : α) : Keeps (pure a) := by
  intro scopes b scopes' h
  cases h
  rfl

theorem keeps_failure : Keeps (failure : Judge α) := by
  intro scopes b scopes' h
  cases h

theorem Keeps.bind {judge : Judge α} {next : α → Judge β} (h : Keeps judge) (hn : ∀ a, Keeps (next a)) :
    Keeps (judge >>= next) := by
  intro scopes b scopes'' hb
  rw [bind_apply, Option.bind_eq_some_iff] at hb
  obtain ⟨⟨a, scopes'⟩, ha, hb⟩ := hb
  exact (hn a _ _ _ hb).trans (h _ _ _ ha)

theorem keeps_guard (p : Prop) [Decidable p] : Keeps (guard p) := by
  intro scopes a scopes' h
  rw [guard_apply] at h
  split at h <;> cases h
  rfl

theorem keeps_lift (a : Option α) : Keeps (StateT.lift a : Judge α) := by
  intro scopes b scopes' h
  cases a <;> cases h
  rfl

theorem keeps_get : Keeps (get : Judge (List Scope)) := by
  intro scopes b scopes' h
  cases h
  rfl

theorem keeps_requireNoVar (id : Text) : Keeps (requireNoVar id) := keeps_get.bind fun _ => keeps_guard _

theorem keeps_variableType (id : Text) : Keeps (variableType id) := keeps_get.bind fun _ => keeps_lift _

theorem keeps_signature (id : Text) : Keeps (signature id) := keeps_get.bind fun _ => keeps_lift _

theorem keeps_bindVar (id : Text) (t : Ty) : Keeps (bindVar id t) := by
  intro scopes b scopes' h
  cases scopes <;> cases h
  rfl

theorem keeps_within (change : List Scope → List Scope) (judge : Judge α) : Keeps (within change judge) := by
  intro scopes b scopes' h
  rw [scopes_eq_of_within h]

theorem Keeps.binding {value : Judge Ty} (h : Keeps value) (id : Text) : Keeps (binding id value) :=
  (keeps_requireNoVar id).bind fun _ => h.bind fun t => (keeps_bindVar id t).bind fun _ => keeps_pure _

theorem Keeps.assignment {value : Judge Ty} (h : Keeps value) (op : Operator) (lhs : Expr) :
    Keeps (assignment op lhs value) := by
  unfold Judge.assignment
  split
  · exact h.bind fun t => (keeps_variableType _).bind fun _ => (keeps_guard _).bind fun _ => keeps_pure _
  · exact keeps_failure

theorem Keeps.condition {test : Judge Ty} (h : Keeps test) : Keeps (condition test) := h.bind fun _ => keeps_guard _

/-- The checks that stand for declarations keep the scopes. -/
theorem keeps_lookup_declarations (functions : List Function) (id : Text) :
    Keeps (((declarations functions).lookup id).getD failure) := by
  induction functions with
  | nil => exact keeps_failure
  | cons f functions ih =>
    obtain ⟨f, body⟩ := f
    rw [declarations, List.lookup_cons]
    cases id == f.name with
    | true => exact keeps_within _ _
    | false => exact ih

theorem Keeps.statement {type : Judge Ty} (h : Keeps type) (functions : List Function) (e : Expr) :
    Keeps (statement (declarations functions) e type) := by
  unfold Judge.statement
  split
  · exact h
  · exact (keeps_lookup_declarations functions _).bind fun _ => keeps_pure _

mutual

theorem keeps_typeOf : (e : Expr) → Keeps (typeOf e)
  | .literal _ value => by
    cases value <;> rw [typeOf]
    case unit => exact keeps_failure
    all_goals
      first
      | exact keeps_pure _
      | simp
  | .name _ id => by
    rw [typeOf]
    exact keeps_variableType id
  | .unary _ op operand => by
    rw [typeOf]
    exact (keeps_typeOf operand).bind fun _ => (keeps_guard _).bind fun _ => keeps_pure _
  | .binary _ op lhs rhs => by
    rw [typeOf]
    split
    · exact (keeps_typeOf rhs).assignment op lhs
    · exact (keeps_typeOf lhs).bind fun _ => (keeps_typeOf rhs).bind fun _ => keeps_lift _
  | .letIn _ id value => by
    rw [typeOf]
    exact (keeps_typeOf value).binding id
  | .ifThen _ test body | .whileLoop _ test body => by
    rw [typeOf]
    exact (keeps_typeOf test).condition.bind fun _ => (keeps_typeOf body).bind fun _ => keeps_pure _
  | .ifElse _ test body orelse => by
    rw [typeOf]
    exact (keeps_typeOf test).condition.bind fun _ => (keeps_typeOf body).bind fun _ =>
      (keeps_typeOf orelse).bind fun _ => (keeps_guard _).bind fun _ => keeps_pure _
  | .forLoop .. => by
    rw [typeOf]
    exact (keeps_within _ _).bind fun _ => keeps_pure _
  | .block .. => by
    rw [typeOf]
    exact keeps_within _ _
  | .call _ callee args => by
    rw [typeOf]
    exact (keeps_signature callee).bind fun _ => (keeps_guard _).bind fun _ =>
      (keeps_checkArguments args _).bind fun _ => keeps_pure _
  | .funDecl .. => by
    rw [typeOf]
    exact keeps_failure

theorem keeps_checkArguments : (args : List Expr) → (params : List (Text × Ty)) → Keeps (checkArguments args params)
  | arg :: args, (_, _) :: params => by
    rw [checkArguments]
    exact (keeps_typeOf arg).bind fun _ => (keeps_guard _).bind fun _ => keeps_checkArguments args params
  | [], _ => by
    rw [checkArguments]
    · exact keeps_pure _
    · simp
  | _ :: _, [] => by
    rw [checkArguments]
    · exact keeps_pure _
    · simp

end

/-- Statements have no type if one of them declares a function that fails in all scopes with the same outline. -/
theorem typeStatements_eq_none {functions : List Function} {statements : List Expr} {last : Ty} {scopes : List Scope}
    {e : Expr} {id : Text} (he : e ∈ statements) (hid : declared? e = some id)
    (hf : ∀ scopes', Scope.outline scopes' = Scope.outline scopes →
      (((declarations functions).lookup id).getD failure) scopes' = none) :
    typeStatements (declarations functions) last statements scopes = none := by
  induction statements generalizing last scopes with
  | nil => cases he
  | cons e' es ih =>
    rw [typeStatements, bind_apply]
    rcases List.mem_cons.1 he with rfl | he
    · rw [statement, hid]
      dsimp only
      rw [bind_apply, hf scopes rfl]
      rfl
    · cases h : statement (declarations functions) e' (typeOf e') scopes with
      | none => rfl
      | some result =>
        obtain ⟨t, scopes'⟩ := result
        have houtline := (keeps_typeOf e').statement functions e' _ _ _ h
        exact ih he fun scopes'' h' => hf scopes'' (h'.trans houtline)

end Judge
end FrontEnd
