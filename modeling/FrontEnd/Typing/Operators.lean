import FrontEnd.Operator
import FrontEnd.Ty

/-!
# Types of operations

* `Operator.resultType?` : the type of a binary operation on values, by the types of its operands;
* `Operator.acceptsOperand` : the operands of a unary operation, which keeps their type;
* `Operator.isAssignment`, `Operator.acceptsValue` : the operators that change a variable, and which values they take.
-/

namespace FrontEnd.Operator

/-- The type of `l op r`, for an operator that changes no variable. Arithmetic on whole numbers gives a whole number and
on other numbers a decimal; equality needs equal types; characters and strings have no operations. -/
def resultType? (op : Operator) (l r : Ty) : Option Ty :=
  match op with
  | add | subtract | multiply | divide | modulo =>
    if l = .int ∧ r = .int then some .int
    else if l.isNumeric ∧ r.isNumeric then some .float
    else none
  | less | greater | lessEq | greaterEq => if l.isNumeric ∧ r.isNumeric then some .bool else none
  | equal | notEqual => if l = r ∧ (l.isNumeric ∨ l = .bool) then some .bool else none
  | and | or => if l = .bool ∧ r = .bool then some .bool else none
  | not | assign | addAssign | subtractAssign => none

theorem resultType?_ne_any {op : Operator} {l r ty : Ty} (h : op.resultType? l r = some ty) : ty ≠ .any := by
  rintro rfl
  cases op <;> simp [resultType?] at h <;> grind

/-- Whether a unary operator takes an operand of type `t`; its result has the same type. -/
def acceptsOperand (op : Operator) (t : Ty) : Bool :=
  match op with
  | subtract => t.isNumeric
  | not => t == .bool
  | _ => false

/-- Whether an operator changes the variable on its left. -/
def isAssignment : Operator → Bool
  | assign | addAssign | subtractAssign => true
  | _ => false

/-- Whether a variable of type `declared` can take a value of type `value` by this assignment. -/
def acceptsValue (op : Operator) (declared value : Ty) : Bool :=
  match op with
  | assign => declared == value
  | _ => value.isNumeric && value == declared

end FrontEnd.Operator
