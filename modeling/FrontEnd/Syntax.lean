import FrontEnd.Binary64
import FrontEnd.Location
import FrontEnd.Operator
import FrontEnd.Ty

/-!
# Syntax trees

* `Literal` : the value of a literal and `Literal.ty` : its type;
* `Signature`, `Expr`, `Function` : what a function states about itself, expressions, and functions with their bodies;
* `Expr.loc`, `Expr.children` : where a node stands, and its parts in order;
* `Expr.nodeCount`, `Expr.height` : the number of nodes of a tree and its depth, the root having depth 0.

A function declared in a block is in the block's list of functions, and a declaration among the statements marks where
it stands in the text. Trees hold no results of checking; those are kept by path (see `FrontEnd.Notes`).
-/

namespace FrontEnd

/-- The values that literals stand for. -/
inductive Literal where
  | int (value : Int)
  | float (value : Binary64)
  | bool (value : Bool)
  | char (value : Char)
  | str (value : Text)
  | unit
deriving DecidableEq, Inhabited

/-- The type of a literal. -/
def Literal.ty : Literal → Ty
  | int _ => .int
  | float _ => .float
  | bool _ => .bool
  | char _ => .char
  | str _ => .str
  | unit => .unit

/-- What a function states: its name, its place, its parameters with their types, and its result's type, which is
`Ty.any` when it is left to its body. -/
structure Signature where
  name : Text
  loc : Location
  params : List (Text × Ty)
  ret : Ty
deriving DecidableEq, Inhabited

mutual

/-- An expression or statement with its place. -/
inductive Expr where
  | literal (loc : Location) (value : Literal)
  | name (loc : Location) (id : Text)
  | unary (loc : Location) (op : Operator) (operand : Expr)
  | binary (loc : Location) (op : Operator) (lhs rhs : Expr)
  | letIn (loc : Location) (name : Text) (value : Expr)
  | ifThen (loc : Location) (test body : Expr)
  | ifElse (loc : Location) (test body orelse : Expr)
  | whileLoop (loc : Location) (test body : Expr)
  /-- A loop that starts by binding its variable at `varLoc`, and runs `step` after each round. -/
  | forLoop (loc varLoc : Location) (var : Text) (start test step body : Expr)
  | block (loc : Location) (functions : List Function) (statements : List Expr)
  | call (loc : Location) (callee : Text) (args : List Expr)
  /-- The place of the declaration of a function of the block. -/
  | funDecl (loc : Location) (name : Text)

/-- A function: what it states, and its body. -/
structure Function where
  signature : Signature
  body : Expr

end

instance : Inhabited Expr := ⟨.literal {} .unit⟩
instance : Inhabited Function := ⟨⟨default, default⟩⟩

namespace Expr

/-- The place of a node. -/
def loc : Expr → Location
  | literal loc .. | name loc .. | unary loc .. | binary loc .. | letIn loc .. | ifThen loc .. | ifElse loc ..
  | whileLoop loc .. | forLoop loc .. | block loc .. | call loc .. | funDecl loc .. => loc

/-- The parts of a node in order. The parts of a block are the bodies of its functions and then its statements, and
the first part of a `for` is the binding of its variable. -/
def children : Expr → List Expr
  | literal .. | name .. | funDecl .. => []
  | unary _ _ operand => [operand]
  | binary _ _ lhs rhs => [lhs, rhs]
  | letIn _ _ value => [value]
  | ifThen _ test body => [test, body]
  | ifElse _ test body orelse => [test, body, orelse]
  | whileLoop _ test body => [test, body]
  | forLoop _ varLoc var start test step body => [letIn varLoc var start, test, step, body]
  | block _ functions statements => functions.map (·.body) ++ statements
  | call _ _ args => args

mutual

/-- The number of nodes of a tree. -/
def nodeCount : Expr → Nat
  | literal .. | name .. | funDecl .. => 1
  | unary _ _ operand => 1 + operand.nodeCount
  | binary _ _ lhs rhs => 1 + lhs.nodeCount + rhs.nodeCount
  | letIn _ _ value => 1 + value.nodeCount
  | ifThen _ test body => 1 + test.nodeCount + body.nodeCount
  | ifElse _ test body orelse => 1 + test.nodeCount + body.nodeCount + orelse.nodeCount
  | whileLoop _ test body => 1 + test.nodeCount + body.nodeCount
  | forLoop _ _ _ start test step body => 2 + start.nodeCount + test.nodeCount + step.nodeCount + body.nodeCount
  | block _ functions statements => 1 + bodiesCount functions + totalCount statements
  | call _ _ args => 1 + totalCount args

/-- The number of nodes of several trees. -/
def totalCount : List Expr → Nat
  | [] => 0
  | e :: es => e.nodeCount + totalCount es

/-- The number of nodes of the bodies of several functions. -/
def bodiesCount : List Function → Nat
  | [] => 0
  | ⟨_, body⟩ :: fs => body.nodeCount + bodiesCount fs

end

mutual

/-- The depth of the deepest node of a tree below its root. -/
def height : Expr → Nat
  | literal .. | name .. | funDecl .. => 0
  | unary _ _ operand => operand.height + 1
  | binary _ _ lhs rhs => max lhs.height rhs.height + 1
  | letIn _ _ value => value.height + 1
  | ifThen _ test body => max test.height body.height + 1
  | ifElse _ test body orelse => max (max test.height body.height) orelse.height + 1
  | whileLoop _ test body => max test.height body.height + 1
  | forLoop _ _ _ start test step body =>
    max (max (start.height + 1) test.height) (max step.height body.height) + 1
  | block _ functions statements => max (bodiesDepth functions) (greatestDepth statements)
  | call _ _ args => greatestDepth args

/-- The depth of the deepest node of several trees below a common root, 0 when there are none. -/
def greatestDepth : List Expr → Nat
  | [] => 0
  | e :: es => max (e.height + 1) (greatestDepth es)

/-- The depth of the deepest node of the bodies of several functions below a common root. -/
def bodiesDepth : List Function → Nat
  | [] => 0
  | ⟨_, body⟩ :: fs => max (body.height + 1) (bodiesDepth fs)

end

theorem nodeCount_pos (e : Expr) : 0 < e.nodeCount := by
  cases e <;> simp only [nodeCount] <;> omega

@[simp] theorem totalCount_append (es fs : List Expr) : totalCount (es ++ fs) = totalCount es + totalCount fs := by
  induction es with
  | nil => simp [totalCount]
  | cons e es ih => simp [totalCount, ih, Nat.add_assoc]

theorem bodiesCount_eq_totalCount (fs : List Function) : bodiesCount fs = totalCount (fs.map (·.body)) := by
  induction fs with
  | nil => rfl
  | cons f fs ih => cases f; simp [bodiesCount, totalCount, ih]

theorem nodeCount_eq_children (e : Expr) : e.nodeCount = 1 + totalCount e.children := by
  cases e <;> simp only [nodeCount, children, totalCount, totalCount_append, bodiesCount_eq_totalCount] <;> omega

theorem bodiesDepth_eq_greatestDepth (fs : List Function) : bodiesDepth fs = greatestDepth (fs.map (·.body)) := by
  induction fs with
  | nil => rfl
  | cons f fs ih => cases f; simp [bodiesDepth, greatestDepth, ih]

@[simp] theorem greatestDepth_append (es fs : List Expr) :
    greatestDepth (es ++ fs) = max (greatestDepth es) (greatestDepth fs) := by
  induction es with
  | nil => simp [greatestDepth]
  | cons e es ih => simp [greatestDepth, ih, Nat.max_assoc]

theorem height_eq_children (e : Expr) : e.height = greatestDepth e.children := by
  cases e <;>
    simp only [height, children, greatestDepth, greatestDepth_append, bodiesDepth_eq_greatestDepth] <;> omega

end Expr
end FrontEnd
