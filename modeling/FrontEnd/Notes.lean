import Std.Data.TreeMap
import FrontEnd.Syntax

/-!
# Notes on syntax trees

What checking finds out about a tree is kept beside the tree, under the paths of its nodes.

* `Path` : the way to a node from outside in, its last step first: the positions of its ancestors and itself among
  their siblings (`Expr.children`), and at the root the number of the program, so that the nodes of several programs
  have different paths;
* `Notes` : the types found for nodes, and the results settled for functions (under the paths of their bodies);
* `Notes.typeAt?`, `Notes.setType`, `Notes.returnOf`, `Notes.setReturn`.
-/

namespace FrontEnd

/-- The positions of a node and its ancestors among their siblings, its own first. -/
abbrev Path := List Nat

/-- The path of the root of the program with this number. -/
def Path.root (program : Nat) : Path := [program]

/-- What is known about the nodes and functions of some trees. -/
structure Notes where
  types : Std.TreeMap Path Ty := {}
  returns : Std.TreeMap Path Ty := {}
deriving Inhabited

namespace Notes

/-- The type noted for the node at `p`. -/
def typeAt? (n : Notes) (p : Path) : Option Ty := n.types[p]?

/-- `n` with the type of the node at `p`. -/
def setType (n : Notes) (p : Path) (t : Ty) : Notes := { n with types := n.types.insert p t }

/-- The return type of a function whose body is at `p`: the settled one, or else the one it states. -/
def returnOf (n : Notes) (p : Path) (s : Signature) : Ty := n.returns[p]?.getD s.ret

/-- `n` with the return type of the function whose body is at `p` settled. -/
def setReturn (n : Notes) (p : Path) (t : Ty) : Notes := { n with returns := n.returns.insert p t }

@[simp] theorem typeAt?_empty (p : Path) : ({} : Notes).typeAt? p = none := by
  simp [typeAt?]

@[simp] theorem returnOf_empty (p : Path) (s : Signature) : ({} : Notes).returnOf p s = s.ret := by
  simp [returnOf]

theorem typeAt?_setType (n : Notes) (p q : Path) (t : Ty) :
    (n.setType p t).typeAt? q = if p = q then some t else n.typeAt? q := by
  simp [typeAt?, setType, Std.TreeMap.getElem?_insert]

theorem returnOf_setReturn (n : Notes) (p q : Path) (t : Ty) (s : Signature) :
    (n.setReturn p t).returnOf q s = if p = q then t else n.returnOf q s := by
  simp only [returnOf, setReturn, Std.TreeMap.getElem?_insert, Std.LawfulEqCmp.compare_eq_iff_eq]
  split <;> rfl

@[simp] theorem typeAt?_setReturn (n : Notes) (p q : Path) (t : Ty) :
    (n.setReturn p t).typeAt? q = n.typeAt? q := rfl

@[simp] theorem returnOf_setType (n : Notes) (p q : Path) (t : Ty) (s : Signature) :
    (n.setType p t).returnOf q s = n.returnOf q s := rfl

end Notes
end FrontEnd
