import FrontEnd.Fault
import FrontEnd.Syntax

/-!
# Loops over ranges

Both short forms of `for` stand for a loop that binds a variable, tests it and steps it.

* `Number`, `Bound` : a number, and one with its place that bounds a range;
* `Expr.rangeLoop` : the loop of `for (i, start, stop, step) body`; it runs upwards when `stop` is greater than
  `start`, both taken to the nearest binary64 number, and downwards otherwise;
* `Expr.countingLoop` : the loop of `for (count) body`, whose variable has a name that no program can write.
-/

namespace FrontEnd

/-- A whole number or a decimal. -/
inductive Number where
  | int (value : Int)
  | float (value : Binary64)
deriving DecidableEq, Inhabited

namespace Number

/-- The literal of a number. -/
def literal : Number → Literal
  | int n => .int n
  | float x => .float x

/-- The binary64 number nearest to a number. -/
def toBinary64 : Number → Binary64
  | int n => .ofInt n
  | float x => x

/-- One, of the same kind as the number. -/
def one : Number → Number
  | int _ => int 1
  | float _ => float .one

/-- The number with the other sign. -/
def negate : Number → Number
  | int n => int (-n)
  | float x => float x.negate

/-- The number that a literal stands for, if it stands for one. -/
def ofLiteral? : Literal → Option Number
  | .int n => some (int n)
  | .float x => some (float x)
  | _ => none

end Number

/-- A bound of a range, with the place of its literal. -/
structure Bound where
  loc : Location
  value : Number
deriving DecidableEq, Inhabited

/-- The bound that a literal gives. -/
def Bound.ofLiteral (side : BoundSide) (loc : Location) (value : Literal) : Except Fault Bound :=
  match Number.ofLiteral? value with
  | some n => .ok ⟨loc, n⟩
  | none => .error (.parse (.boundType side value.ty) loc)

namespace Expr

/-- Whether a range runs upwards. -/
def runsUpwards (start stop : Bound) : Bool := start.value.toBinary64.lt stop.value.toBinary64

/-- How a range loop at `loc` steps: by the given amount or by one, against the direction of the numbers when the
range runs downwards. -/
def rangeStep (loc : Location) (start stop : Bound) (step : Option Expr) : Expr :=
  match step with
  | some amount => if runsUpwards start stop then amount else unary loc .subtract amount
  | none =>
    let one := start.value.one
    literal stop.loc (if runsUpwards start stop then one else one.negate).literal

/-- The loop that runs `body` with `var` going from `start` towards `stop`. -/
def rangeLoop (loc : Location) (var : Text) (start stop : Bound) (step : Option Expr) (body : Expr) : Expr :=
  let comparison : Operator := if runsUpwards start stop then .less else .greater
  forLoop loc start.loc var (literal start.loc start.value.literal)
    (binary stop.loc comparison (name start.loc var) (literal stop.loc stop.value.literal))
    (binary stop.loc .addAssign (name stop.loc var) (rangeStep loc start stop step))
    body

/-- The name of the variable of a counting loop, which is no identifier. -/
def countingVariable : Text := ".for"

/-- The loop that runs `body` for a variable going from 0 up to `count`. -/
def countingLoop (loc : Location) (count body : Expr) : Expr :=
  forLoop loc loc countingVariable (literal loc (.int 0))
    (binary loc .less (name loc countingVariable) count)
    (binary loc .addAssign (name loc countingVariable) (literal loc (.int 1)))
    body

end Expr
end FrontEnd
