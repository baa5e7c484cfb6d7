import FrontEnd.Metrics
import FrontEnd.Syntax

/-!
# Measuring trees

* `Survey` : the state of a walk through a tree: the nodes that it has counted, how deep it is, and how deep it has
  been;
* `Survey.count`, `Survey.below` : a node is counted where the walk is, and a part is walked one level further down;
* `Expr.survey` : the walk through a tree, each node before its parts;
* `Expr.geometry` : the size of a tree whose root has depth 0.
-/

namespace FrontEnd

/-- The nodes counted so far, the depth of the walk, and the greatest depth of a node counted so far. -/
structure Survey where
  nodes : Nat := 0
  depth : Nat := 0
  maxDepth : Nat := 0
deriving DecidableEq, Inhabited

namespace Survey

/-- A node is counted. -/
def count (s : Survey) : Survey := { s with nodes := s.nodes + 1, maxDepth := max s.maxDepth s.depth }

/-- A walk one level further down. -/
def below (walk : Survey → Survey) (s : Survey) : Survey :=
  let inner := walk { s with depth := s.depth + 1 }
  { inner with depth := inner.depth - 1 }

end Survey

namespace Expr

mutual

/-- The walk through a tree. A block's functions come before its statements. -/
def survey : Expr → Survey → Survey
  | literal .., s | name .., s | funDecl .., s => s.count
  | unary _ _ operand, s => s.count.below operand.survey
  | binary _ _ lhs rhs, s => (s.count.below lhs.survey).below rhs.survey
  | letIn _ _ value, s => s.count.below value.survey
  | ifThen _ test body, s => (s.count.below test.survey).below body.survey
  | ifElse _ test body orelse, s => ((s.count.below test.survey).below body.survey).below orelse.survey
  | whileLoop _ test body, s => (s.count.below test.survey).below body.survey
  | forLoop _ _ _ start test step body, s =>
    (((s.count.below fun s => s.count.below start.survey).below test.survey).below step.survey).below body.survey
  | block _ functions statements, s => surveyAll statements (surveyBodies functions s.count)
  | call _ _ args, s => surveyAll args s.count

/-- The walk through several trees, one level further down. -/
def surveyAll : List Expr → Survey → Survey
  | [], s => s
  | e :: es, s => surveyAll es (s.below e.survey)

/-- The walk through the bodies of several functions, one level further down. -/
def surveyBodies : List Function → Survey → Survey
  | [], s => s
  | ⟨_, body⟩ :: fs, s => surveyBodies fs (s.below body.survey)

end

/-- The size of a tree. -/
def geometry (e : Expr) : Geometry :=
  let s := e.survey {}
  ⟨s.nodes, s.maxDepth⟩

end Expr
end FrontEnd
