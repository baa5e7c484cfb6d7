import FrontEnd.Fault
import FrontEnd.Syntax

/-!
# Operator precedence

An expression is read as a run of terms, operands and operators in the order of the text, and is given its structure
afterwards.

* `Term` : an operand, or an operator with its place;
* `Term.split?` : the first operator of the loosest tier in a run, the term in front of the run's rest aside;
* `Term.resolve` : the tree of a run: it is split at that operator; a run without one is a single operand, or a unary
  operator in front of another run.

`split?_spec` says that a split takes the run apart at one operator with something in front of it.
-/

namespace FrontEnd

/-- A part of an expression before operators have found their operands. -/
inductive Term where
  | operand (e : Expr)
  | operator (op : Operator) (loc : Location)

namespace Term

/-- Whether a term is an operand. -/
def isOperand : Term → Bool
  | operand _ => true
  | operator .. => false

/-- A run of terms taken apart at an operator. -/
structure Split where
  left : List Term
  op : Operator
  loc : Location
  right : List Term

/-- The split of a run at its first operator of this tier. -/
def splitAtTier? (tier : Nat) : List Term → Option Split
  | [] => none
  | operand e :: rest => (splitAtTier? tier rest).map fun s => { s with left := operand e :: s.left }
  | operator op loc :: rest =>
    if op.tier = some tier then some ⟨[], op, loc, rest⟩
    else (splitAtTier? tier rest).map fun s => { s with left := operator op loc :: s.left }

/-- The split of `first :: rest` at the first operator in `rest` of the loosest tier that occurs there. -/
def split? (first : Term) (rest : List Term) : Option Split :=
  (Operator.tiersLoosestFirst.findSome? (splitAtTier? · rest)).map fun s => { s with left := first :: s.left }

theorem splitAtTier?_spec {tier : Nat} {run : List Term} {s : Split} (h : splitAtTier? tier run = some s) :
    run = s.left ++ operator s.op s.loc :: s.right ∧ s.op.tier = some tier := by
  fun_induction splitAtTier? tier run generalizing s with
  | case1 => cases h
  | case2 e rest ih =>
    obtain ⟨s', hs', rfl⟩ := Option.map_eq_some_iff.1 h
    obtain ⟨hr, ht⟩ := ih hs'
    exact ⟨by simp [hr], ht⟩
  | case3 op loc rest ht =>
    cases h
    exact ⟨rfl, ht⟩
  | case4 op loc rest _ ih =>
    obtain ⟨s', hs', rfl⟩ := Option.map_eq_some_iff.1 h
    obtain ⟨hr, ht⟩ := ih hs'
    exact ⟨by simp [hr], ht⟩

theorem split?_spec {first : Term} {rest : List Term} {s : Split} (h : split? first rest = some s) :
    first :: rest = s.left ++ operator s.op s.loc :: s.right ∧ s.left ≠ [] := by
  obtain ⟨s', hs', rfl⟩ := Option.map_eq_some_iff.1 h
  obtain ⟨tier, _, ht⟩ := List.exists_of_findSome?_eq_some hs'
  exact ⟨by simp [(splitAtTier?_spec ht).1], by simp⟩

theorem length_left_lt_of_split? {first : Term} {rest : List Term} {s : Split} (h : split? first rest = some s) :
    s.left.length < rest.length + 1 := by
  have := congrArg List.length (split?_spec h).1
  simp only [List.length_cons, List.length_append] at this
  omega

theorem length_right_lt_of_split? {first : Term} {rest : List Term} {s : Split} (h : split? first rest = some s) :
    s.right.length < rest.length + 1 := by
  have := congrArg List.length (split?_spec h).1
  simp only [List.length_cons, List.length_append] at this
  omega

/-- The tree of a run of terms. -/
def resolve (run : List Term) : Except Fault Expr :=
  match run with
  | [] => .error (.internal .noTerms)
  | first :: rest =>
    match (first :: rest).getLast (by simp) with
    | operator op loc => .error (.parse (.danglingOperator op) loc)
    | operand e =>
      if rest = [] then .ok e
      else
        match h : split? first rest with
        | some s => do
          have := length_left_lt_of_split? h
          have := length_right_lt_of_split? h
          let lhs ← resolve s.left
          let rhs ← resolve s.right
          return .binary s.loc s.op lhs rhs
        | none =>
          match first, rest with
          | operator op loc, rest =>
            if op.isUnary then do return .unary loc op (← resolve rest)
            else .error (.parse (.notUnary op) loc)
          | operand _, operator op loc :: _ => .error (.parse (.notBinary op) loc)
          | operand _, _ => .error (.internal .adjacentOperands)
termination_by run.length

end Term
end FrontEnd
