import FrontEnd.Text

/-!
# Operators

* `Operator` : the operators of expressions, unary and binary ones in one set;
* `Operator.spelling` : how each is written;
* `Operator.tier` : the strength of a binary operator, 0 the tightest, and none for an operator without binary use;
* `Operator.isUnary` : which may stand before an operand.
-/

namespace FrontEnd

/-- The operators. Where an operator has two uses, its position decides. -/
inductive Operator where
  | add | subtract | multiply | divide | modulo
  | less | greater | lessEq | greaterEq
  | equal | notEqual
  | and | or | not
  | assign | addAssign | subtractAssign
deriving DecidableEq, Inhabited

namespace Operator

/-- How an operator is written. -/
def spelling : Operator → Text
  | add => "+"
  | subtract => "-"
  | multiply => "*"
  | divide => "/"
  | modulo => "%"
  | less => "<"
  | greater => ">"
  | lessEq => "<="
  | greaterEq => ">="
  | equal => "=="
  | notEqual => "!="
  | and => "&&"
  | or => "||"
  | not => "!"
  | assign => "="
  | addAssign => "+="
  | subtractAssign => "-="

/-- The binding strength of a binary operator; a smaller tier binds more tightly. -/
def tier : Operator → Option Nat
  | multiply | divide | modulo => some 0
  | add | subtract => some 1
  | less | greater | lessEq | greaterEq => some 2
  | equal | notEqual => some 3
  | and => some 4
  | or => some 5
  | assign | addAssign | subtractAssign => some 6
  | not => none

/-- The tiers, loosest first. -/
def tiersLoosestFirst : List Nat := [6, 5, 4, 3, 2, 1, 0]

/-- Whether an operator may stand before an operand. -/
def isUnary : Operator → Bool
  | subtract | not => true
  | _ => false

theorem tier_eq_none_iff {o : Operator} : o.tier = none ↔ o = not := by
  cases o <;> decide

theorem mem_tiersLoosestFirst {o : Operator} {n : Nat} (h : o.tier = some n) : n ∈ tiersLoosestFirst := by
  cases o <;> simp only [tier, Option.some.injEq, reduceCtorEq] at h <;> subst h <;> decide

end Operator
end FrontEnd
