import FrontEnd.Typing.Check
import FrontEnd.Typing.Operators

/-!
# Type checking

* `Typing.Walker` : how a check goes on, to the parts of a node and to the bodies of functions;
* `Typing.rule` : the typing rule of each kind of node, given how the check goes on;
* `Typing.bodyRule` : the check of a registered function's body, which settles its return type;
* `Typing.typeOf`, `Typing.check` : the type of a tree, noted at each of its nodes.

The functions of a block are registered before its statements are typed. A body is checked at the function's
declaration, in the frames its closure captured, or before that at the first call, in the frames that are open at the
call from the declaring one outwards. While a body is being checked, a call of the same function uses its stated type.
-/

namespace FrontEnd

namespace Typing
open Check

/-- What makes the body of a function be checked. -/
inductive Occasion where
  /-- A call that is reached before the body has been looked at. -/
  | call
  | declaration
deriving DecidableEq, Inhabited

/-- How a check goes on: how the tree whose root is at a path is typed, and how the body of the closure at a position
is checked. -/
structure Walker where
  typeOf : Path → Expr → Check Ty
  checkClosure : Occasion → Nat → Check Unit

section Rules
variable (walker : Walker)

/-! ## Functions -/

/-- Binds the parameters of a function. -/
def bindParameters (loc : Location) : List (Text × Ty) → Check Unit
  | [] => pure ()
  | (id, t) :: params => do
    if (← get).hasVar id then refuse (.parameterTwice id) loc
    bindVar id t
    bindParameters loc params

/-- Checks the body of `f`, which is at `site`, in the frames that are open, with the parameters in a frame of their
own. A function without a return type takes that of its body. -/
def checkFunction (site : Path) (f : Function) : Check Ty := do
  let t ← inNewFrame do
    bindParameters f.signature.loc f.signature.params
    walker.typeOf site f.body
  let ret := (← get).notes.returnOf site f.signature
  if ret = .any then modify fun env => { env with notes := env.notes.setReturn site t }
  else if ret ≠ t then refuse (.returnType ret t) f.signature.loc
  return t

/-- The frames in which the body of a closure is checked: for a call those that are open from the declaring one
outwards, for the declaration those that the closure captured. -/
def bodyFrames (occasion : Occasion) (c : Closure) : Check (List Frame) :=
  match occasion with
  | .call => declaringFrames c.scope
  | .declaration => return c.captured

/-- Checks the body of the function whose closure is at position `i`. -/
def bodyRule (occasion : Occasion) (i : Nat) : Check Unit := do
  setProgress i .checking
  let c := (← get).closure i
  let frames ← bodyFrames occasion c
  let _ ← inFrames frames (checkFunction walker c.site c.function)
  setProgress i .checked

/-- The arguments of the call at `p` from position `i` on, against the parameters. -/
def checkArguments (callee : Text) (p : Path) : Nat → List Expr → List (Text × Ty) → Check Unit
  | i, arg :: args, (_, expected) :: params => do
    let t ← walker.typeOf (i :: p) arg
    if t ≠ expected then refuse (.argumentType callee (i + 1) expected t) arg.loc
    checkArguments callee p (i + 1) args params
  | _, _, _ => pure ()

/-- A call. A function whose body has not been looked at yet is checked first. -/
def callRule (p : Path) (loc : Location) (callee : Text) (args : List Expr) : Check Ty := do
  match (← get).lookupFun? callee with
  | none => refuse (.unknownFunction callee) loc
  | some i =>
    let c := (← get).closure i
    let params := c.function.signature.params
    if (← get).returnOf c = .any then refuse (.needsReturnType callee) loc
    if args.length ≠ params.length then refuse (.argumentCount callee params.length args.length) loc
    checkArguments walker callee p 0 args params
    if ((← get).closure i).progress = .unchecked then walker.checkClosure .call i
    return (← get).returnOf c

/-- The declaration of a function: its body is checked, whether a call has had it checked before or not. -/
def declarationRule (id : Text) : Check Ty := do
  walker.checkClosure .declaration (← registered id)
  return .unit

/-! ## Blocks -/

/-- Registers the functions of the block at `p` from position `i` on. -/
def registerAll (p : Path) : Nat → List Function → Check Unit
  | _, [] => pure ()
  | i, f :: fs => do
    if (← get).hasFun f.signature.name then refuse (.functionExists f.signature.name) f.signature.loc
    register f.signature.name f (i :: p)
    registerAll p (i + 1) fs

/-- The type of the last of several statements, which are the parts of the node at `p` from position `i` on; `last`
when there are none. -/
def typeStatements (p : Path) : Nat → Ty → List Expr → Check Ty
  | _, last, [] => pure last
  | i, _, e :: es => do
    let t ← walker.typeOf (i :: p) e
    typeStatements p (i + 1) t es

/-- A block, in a frame of its own. -/
def blockRule (p : Path) (functions : List Function) (statements : List Expr) : Check Ty :=
  inNewFrame do
    registerAll p 0 functions
    linkSiblings
    typeStatements walker p functions.length .unit statements

/-! ## Bindings, operations and control flow -/

/-- A binding: the name must be free in the innermost frame before its value is typed. -/
def letRule (p : Path) (loc : Location) (id : Text) (value : Expr) : Check Ty := do
  if (← get).hasVar id then refuse (.variableExists id) loc
  let t ← walker.typeOf (0 :: p) value
  bindVar id t
  return .unit

/-- An assignment: the value is typed before the variable is looked up. -/
def assignmentRule (p : Path) (loc : Location) (op : Operator) (lhs rhs : Expr) : Check Ty := do
  match lhs with
  | .name target id =>
    let value ← walker.typeOf (1 :: p) rhs
    match (← get).lookupVar? id with
    | none => refuse (.unknownVariable id) target
    | some declared =>
      note (0 :: p) declared
      if !op.acceptsValue declared value then
        refuse (if op = .assign then .assigned id declared value else .compoundAssigned op id declared value) loc
      return .unit
  | _ => refuse (.notAssignable op) loc

/-- A binary operation. -/
def binaryRule (p : Path) (loc : Location) (op : Operator) (lhs rhs : Expr) : Check Ty := do
  if op.isAssignment then assignmentRule walker p loc op lhs rhs
  else if op.tier = none then throw (.internal (.notBinary op))
  else
    let l ← walker.typeOf (0 :: p) lhs
    let r ← walker.typeOf (1 :: p) rhs
    match op.resultType? l r with
    | some t => return t
    | none => refuse (.binaryOperands op l r) loc

/-- A unary operation. -/
def unaryRule (p : Path) (loc : Location) (op : Operator) (operand : Expr) : Check Ty := do
  let t ← walker.typeOf (0 :: p) operand
  if !op.isUnary then throw (.internal (.notUnary op))
  if !op.acceptsOperand t then refuse (.unaryOperand op t) loc
  return t

/-- The condition of a statement, which is the part at position `i` of the node at `p`. -/
def checkCondition (p : Path) (i : Nat) (statement : Conditional) (loc : Location) (test : Expr) : Check Unit := do
  let t ← walker.typeOf (i :: p) test
  if t ≠ .bool then refuse (.condition statement t) loc

/-- A loop with a variable, in a frame of its own. -/
def forRule (p : Path) (loc varLoc : Location) (var : Text) (start test step body : Expr) : Check Ty := do
  inNewFrame do
    let _ ← walker.typeOf (0 :: p) (.letIn varLoc var start)
    checkCondition walker p 1 .forStatement loc test
    let _ ← walker.typeOf (2 :: p) step
    let _ ← walker.typeOf (3 :: p) body
  return .unit

/-- The type of the node at `p` by the rule of its kind. -/
def rule (p : Path) : Expr → Check Ty
  | .literal _ .unit => throw (.internal .unitLiteral)
  | .literal _ value => return value.ty
  | .name loc id => do
    match (← get).lookupVar? id with
    | some t => return t
    | none => refuse (.unknownVariable id) loc
  | .unary loc op operand => unaryRule walker p loc op operand
  | .binary loc op lhs rhs => binaryRule walker p loc op lhs rhs
  | .letIn loc id value => letRule walker p loc id value
  | .ifThen loc test body => do
    checkCondition walker p 0 .ifStatement loc test
    let _ ← walker.typeOf (1 :: p) body
    return .unit
  | .ifElse loc test body orelse => do
    checkCondition walker p 0 .ifStatement loc test
    let t ← walker.typeOf (1 :: p) body
    let t' ← walker.typeOf (2 :: p) orelse
    if t ≠ t' then refuse (.branches t t') loc
    return t
  | .whileLoop loc test body => do
    checkCondition walker p 0 .whileStatement loc test
    let _ ← walker.typeOf (1 :: p) body
    return .unit
  | .forLoop loc varLoc var start test step body => forRule walker p loc varLoc var start test step body
  | .block _ functions statements => blockRule walker p functions statements
  | .call loc callee args => callRule walker p loc callee args
  | .funDecl _ id => declarationRule walker id

end Rules

/-! ## Trees -/

mutual

/-- The type of the tree whose root is at a path, noted there when it has one. A check that would have to nest nodes
and bodies of functions more than `limit` deep is given up. -/
def typeOf : (limit : Nat) → Path → Expr → Check Ty
  | 0, _, _ => throw (.internal .nestedTooDeeply)
  | limit + 1, p, e => do
    let t ← rule ⟨typeOf limit, checkClosure limit⟩ p e
    note p t
    return t

/-- Checks the body of the closure at a position, within the same limit. -/
def checkClosure : (limit : Nat) → Occasion → Nat → Check Unit
  | 0, _, _ => throw (.internal .nestedTooDeeply)
  | limit + 1, occasion, i => bodyRule ⟨typeOf limit, checkClosure limit⟩ occasion i

end

/-- The walker that nests nodes and bodies at most `limit` deep. -/
def walker (limit : Nat) : Walker := ⟨typeOf limit, checkClosure limit⟩

/-- A bound on how deep nodes and bodies nest when a tree of `nodes` nodes is checked in `env`: a check goes down the
tree, and from calls and declarations down the bodies of functions, none of which is entered by calls more than once. -/
def nestingLimit (env : Env) (nodes : Nat) : Nat :=
  let size := env.closures.foldl (fun n c => n + c.function.body.nodeCount) nodes
  2 * ((size + 1) * (size + 1))

/-- Checks the tree whose root is at `p`, and gives its type. -/
def check (p : Path) (e : Expr) : Check Ty := do typeOf (nestingLimit (← get) e.nodeCount) p e

/-- Checks the function `f` with its body at `site` in the open frames, and gives the type of its body. -/
def checkBody (site : Path) (f : Function) : Check Ty := do
  checkFunction (walker (nestingLimit (← get) f.body.nodeCount)) site f

end Typing
end FrontEnd
