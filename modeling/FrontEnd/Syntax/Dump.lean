import FrontEnd.Binary64.Text
import FrontEnd.Notes
import FrontEnd.Text.Outline

/-!
# Tree dumps

* `Expr.outline` : a tree with its notes as an outline, a heading for each node, for each function and for each part of
  a branch or loop;
* `Expr.dump` : the outline of a program as text.

A heading names the kind of a node and what it holds, and ends in the type noted for it, if one is. A block lists its
functions before its statements.
-/

namespace FrontEnd

/-- What a dump says of a literal. -/
def Literal.heading : Literal → Text
  | int n => "IntLiteral " ++ Text.ofInt n
  | float x => "FloatLiteral " ++ x.text Binary64.dumpLayout
  | bool b => "BoolLiteral " ++ (if b then "true" else "false" : Text)
  | char c => "CharLiteral '" ++ [c, '\'']
  | str s => "StringLiteral \"" ++ s ++ ['"']
  | unit => "UnitLiteral"

/-- What a dump says of a function with return type `ret`. -/
def Signature.heading (s : Signature) (ret : Ty) : Text :=
  "Function " ++ s.name ++ ['('] ++ Text.joined ", " (s.params.map fun (x, t) => x ++ ": " ++ t.name) ++ ") -> " ++
    ret.name

/-- `text` with the type noted at `p`. -/
def Notes.annotate (notes : Notes) (p : Path) (text : Text) : Text :=
  match notes.typeAt? p with
  | none => text
  | some t => text ++ " : " ++ t.name

namespace Expr

mutual

/-- The outline of the tree whose root is at `p`. -/
def outline (notes : Notes) (p : Path) : Expr → Outline
  | literal _ value => .item (notes.annotate p value.heading) []
  | name _ id => .item (notes.annotate p ("Name " ++ id)) []
  | unary _ op operand => .item (notes.annotate p ("Unary " ++ op.spelling)) [operand.outline notes (0 :: p)]
  | binary _ op lhs rhs =>
    .item (notes.annotate p ("Binary " ++ op.spelling)) [lhs.outline notes (0 :: p), rhs.outline notes (1 :: p)]
  | letIn _ var value => .item (notes.annotate p ("Let " ++ var)) [value.outline notes (0 :: p)]
  | ifThen _ test body =>
    .item (notes.annotate p "IfExpr")
      [.item "Cond:" [test.outline notes (0 :: p)], .item "Then:" [body.outline notes (1 :: p)]]
  | ifElse _ test body orelse =>
    .item (notes.annotate p "IfExpr")
      [.item "Cond:" [test.outline notes (0 :: p)], .item "Then:" [body.outline notes (1 :: p)],
        .item "Else:" [orelse.outline notes (2 :: p)]]
  | whileLoop _ test body =>
    .item (notes.annotate p "WhileExpr")
      [.item "Cond:" [test.outline notes (0 :: p)], .item "Body:" [body.outline notes (1 :: p)]]
  | forLoop _ _ var start test step body =>
    .item (notes.annotate p "ForExpr")
      [.item "Init:" [.item (notes.annotate (0 :: p) ("Let " ++ var)) [start.outline notes (0 :: 0 :: p)]],
        .item "Cond:" [test.outline notes (1 :: p)], .item "Step:" [step.outline notes (2 :: p)],
        .item "Body:" [body.outline notes (3 :: p)]]
  | block _ functions statements =>
    .item (notes.annotate p "Block")
      (functionOutlines notes p 0 functions ++ outlines notes p functions.length statements)
  | call _ callee args => .item (notes.annotate p ("Call " ++ callee)) (outlines notes p 0 args)
  | funDecl _ declared => .item (notes.annotate p ("FunDecl " ++ declared)) []

/-- The outlines of the parts of the node at `p` from position `i` on. -/
def outlines (notes : Notes) (p : Path) (i : Nat) : List Expr → List Outline
  | [] => []
  | e :: es => e.outline notes (i :: p) :: outlines notes p (i + 1) es

/-- The outlines of the functions of the block at `p` from position `i` on. -/
def functionOutlines (notes : Notes) (p : Path) (i : Nat) : List Function → List Outline
  | [] => []
  | ⟨signature, body⟩ :: fs =>
    .item (signature.heading (notes.returnOf (i :: p) signature)) [body.outline notes (i :: p)] ::
      functionOutlines notes p (i + 1) fs

end

/-- The dump of the tree whose root is at `p`. -/
def dump (notes : Notes) (p : Path) (e : Expr) : Text := (e.outline notes p).text

end Expr
end FrontEnd
