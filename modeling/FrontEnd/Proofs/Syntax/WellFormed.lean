import FrontEnd.Syntax.Literal
import FrontEnd.Syntax.Loop
import FrontEnd.Syntax.Precedence

/-!
# Well-formed trees

* `Expr.WellFormed` : the trees that programs are read as: literals have source syntax, operators stand where they
  have a meaning, parameters have types, and a block declares its functions among its statements, each once and in
  order; `Expr.IsProgram` : those of them that are whole programs;
* `Term.Alternates` : runs of terms in which no operand follows another;
* `Term.resolve_yields` : such a run is resolved into a well-formed tree or refused as a syntax error, but never
  outside the cases that resolution knows.
-/

namespace FrontEnd

/-- Whether a fault is one in the form of the program. -/
def Fault.IsSyntax (f : Fault) : Prop := ∃ cause loc, f = .parse cause loc

/-- The outcome is a value that is `good`, or a syntax error. -/
def Yields {α : Type} (good : α → Prop) : Except Fault α → Prop
  | .ok a => good a
  | .error f => f.IsSyntax

theorem Yields.bind {α β : Type} {first : α → Prop} {good : β → Prop} {x : Except Fault α} {f : α → Except Fault β}
    (hx : Yields first x) (hf : ∀ a, first a → Yields good (f a)) : Yields good (x >>= f) := by
  cases x with
  | ok a => exact hf a hx
  | error fault => exact hx

namespace Expr

/-- Whether a node marks the place of a declaration. -/
def isDeclaration : Expr → Bool
  | funDecl .. => true
  | _ => false

/-- What marks the place of a function's declaration. -/
def declarationOf (s : Signature) : Expr := funDecl s.loc s.name

/-- A tree that can be the result of reading. Declarations stand among the statements of blocks only. -/
inductive WellFormed : Expr → Prop
  | literal {loc : Location} {value : Literal} (h : value ≠ .unit) : WellFormed (literal loc value)
  | name {loc : Location} {id : Text} : WellFormed (name loc id)
  | unary {loc : Location} {op : Operator} {operand : Expr} (hop : op.isUnary) (h : WellFormed operand) :
    WellFormed (unary loc op operand)
  | binary {loc : Location} {op : Operator} {lhs rhs : Expr} (hop : op.tier ≠ none) (hl : WellFormed lhs)
    (hr : WellFormed rhs) : WellFormed (binary loc op lhs rhs)
  | letIn {loc : Location} {id : Text} {value : Expr} (h : WellFormed value) : WellFormed (letIn loc id value)
  | ifThen {loc : Location} {test body : Expr} (ht : WellFormed test) (hb : WellFormed body) :
    WellFormed (ifThen loc test body)
  | ifElse {loc : Location} {test body orelse : Expr} (ht : WellFormed test) (hb : WellFormed body)
    (he : WellFormed orelse) : WellFormed (ifElse loc test body orelse)
  | whileLoop {loc : Location} {test body : Expr} (ht : WellFormed test) (hb : WellFormed body) :
    WellFormed (whileLoop loc test body)
  | forLoop {loc varLoc : Location} {var : Text} {start test step body : Expr} (hs : WellFormed start)
    (ht : WellFormed test) (hi : WellFormed step) (hb : WellFormed body) :
    WellFormed (forLoop loc varLoc var start test step body)
  | block {loc : Location} {functions : List Function} {statements : List Expr}
    (hp : ∀ f ∈ functions, ∀ p ∈ f.signature.params, p.2 ≠ .any)
    (hf : ∀ f ∈ functions, WellFormed f.body)
    (hs : ∀ e ∈ statements, e.isDeclaration = false → WellFormed e)
    (hd : statements.filter isDeclaration = functions.map fun f => declarationOf f.signature) :
    WellFormed (block loc functions statements)
  | call {loc : Location} {callee : Text} {args : List Expr} (h : ∀ e ∈ args, WellFormed e) :
    WellFormed (call loc callee args)

/-- A tree that can be that of a whole program. -/
def IsProgram (e : Expr) : Prop := e.WellFormed ∧ ∃ loc functions statements, e = block loc functions statements

theorem WellFormed.isDeclaration_eq_false {e : Expr} (h : e.WellFormed) : e.isDeclaration = false := by
  cases h <;> rfl

theorem WellFormed.declaration_mem {loc : Location} {functions : List Function} {statements : List Expr} {f : Function}
    (h : (Expr.block loc functions statements).WellFormed) (hf : f ∈ functions) :
    declarationOf f.signature ∈ statements := by
  cases h with
  | block _ _ _ hd =>
    have hmem : declarationOf f.signature ∈ statements.filter isDeclaration := by
      rw [hd]
      exact List.mem_map.2 ⟨f, hf, rfl⟩
    exact (List.mem_filter.1 hmem).1

theorem WellFormed.body {loc : Location} {functions : List Function} {statements : List Expr} {f : Function}
    (h : (Expr.block loc functions statements).WellFormed) (hf : f ∈ functions) : f.body.WellFormed := by
  cases h with
  | block _ hbodies _ _ => exact hbodies f hf

theorem WellFormed.of_mem_children_of_ne_block {e part : Expr} (h : e.WellFormed)
    (hne : ∀ loc functions statements, e ≠ Expr.block loc functions statements) (hc : part ∈ e.children) :
    part.WellFormed := by
  cases h with
  | literal h => simp [children] at hc
  | name => simp [children] at hc
  | unary _ h =>
    obtain rfl : part = _ := by simpa [children] using hc
    exact h
  | binary _ hl hr =>
    obtain rfl | rfl : part = _ ∨ part = _ := by simpa [children] using hc
    · exact hl
    · exact hr
  | letIn h =>
    obtain rfl : part = _ := by simpa [children] using hc
    exact h
  | ifThen ht hb | whileLoop ht hb =>
    obtain rfl | rfl : part = _ ∨ part = _ := by simpa [children] using hc
    · exact ht
    · exact hb
  | ifElse ht hb he =>
    obtain rfl | rfl | rfl : part = _ ∨ part = _ ∨ part = _ := by simpa [children] using hc
    · exact ht
    · exact hb
    · exact he
  | forLoop hs ht hi hb =>
    obtain rfl | rfl | rfl | rfl : part = _ ∨ part = _ ∨ part = _ ∨ part = _ := by simpa [children] using hc
    · exact .letIn hs
    · exact ht
    · exact hi
    · exact hb
  | block => exact absurd rfl (hne _ _ _)
  | call h => exact h part hc

/-- The parts of a well-formed node are well formed, but for the declarations of a block. -/
theorem WellFormed.of_mem_children {e part : Expr} (h : e.WellFormed) (hc : part ∈ e.children)
    (hd : part.isDeclaration = false) : part.WellFormed := by
  cases e with
  | block loc functions statements =>
    cases h with
    | block _ hf hs _ =>
      rcases List.mem_append.1 hc with hc | hc
      · obtain ⟨f, hm, rfl⟩ := List.mem_map.1 hc
        exact hf f hm
      · exact hs part hc hd
  | _ => exact h.of_mem_children_of_ne_block (by simp) hc

theorem wellFormed_rangeLoop {loc : Location} {var : Text} {start stop : Bound} {step : Option Expr} {body : Expr}
    (hs : ∀ e ∈ step, WellFormed e) (hb : body.WellFormed) : (rangeLoop loc var start stop step body).WellFormed := by
  have number : ∀ (loc : Location) (n : Number), (literal loc n.literal).WellFormed := by
    intro loc n
    cases n <;> exact .literal (by simp [Number.literal])
  have amount : (rangeStep loc start stop step).WellFormed := by
    unfold rangeStep
    cases step with
    | none => exact number ..
    | some amount =>
      dsimp only
      split
      · exact hs amount rfl
      · exact .unary rfl (hs amount rfl)
  refine .forLoop (number ..) (.binary ?_ .name (number ..)) (.binary (by decide) .name amount) hb
  split <;> decide

theorem wellFormed_countingLoop {loc : Location} {count body : Expr} (hc : count.WellFormed) (hb : body.WellFormed) :
    (countingLoop loc count body).WellFormed :=
  .forLoop (.literal (by simp)) (.binary (by decide) .name hc)
    (.binary (by decide) .name (.literal (by simp))) hb

end Expr

theorem Literal.ne_unit_of_ofToken {token : Token} {value : Literal} (h : Literal.ofToken token = .ok value) :
    value ≠ .unit := by
  rintro rfl
  unfold Literal.ofToken at h
  split at h
  · dsimp only at h
    split at h <;> simp at h
  · split at h <;> simp at h
  · simp at h
  · cases hd : Quoted.decode token.text with
    | error cause => simp [hd, bind, Except.bind] at h
    | ok text =>
      simp only [hd, bind, Except.bind] at h
      split at h <;> simp [pure, Except.pure, throw, throwThe, MonadExceptOf.throw] at h
  · cases hd : Quoted.decode token.text <;> simp [hd, bind, Except.bind, pure, Except.pure] at h
  · simp at h

theorem Literal.kind_of_ofToken {t : Token} {value : Literal} (h : Literal.ofToken t = .ok value) :
    t.kind = .integer ∨ t.kind = .decimal ∨ t.kind = .boolean ∨ t.kind = .character ∨ t.kind = .string := by
  unfold Literal.ofToken at h
  split at h <;> simp_all

/-- A whole number is the value of its digits. -/
theorem Literal.int_of_ofToken {t : Token} {n : Int} (h : Literal.ofToken t = .ok (.int n)) :
    n = Text.digitsValue t.text ∧ Text.digitsValue t.text ≤ greatestInt := by
  unfold Literal.ofToken at h
  split at h
  · dsimp only at h
    split at h
    · next hle => exact ⟨(Literal.int.inj (Except.ok.inj h)).symm, hle⟩
    · cases h
  · split at h <;> cases h
  · cases h
  · cases hd : Quoted.decode t.text with
    | error cause => simp [hd, bind, Except.bind] at h
    | ok text =>
      simp only [hd, bind, Except.bind] at h
      split at h <;> simp [pure, Except.pure, throw, throwThe, MonadExceptOf.throw] at h
  · cases hd : Quoted.decode t.text <;> simp [hd, bind, Except.bind, pure, Except.pure] at h
  · cases h

namespace Term

/-! ## Runs of terms -/

/-- Whether the operands of a run are well formed and none follows another. `afterOperand` says whether one stands in
front of the run. -/
def Alternates : (afterOperand : Bool) → List Term → Prop
  | _, [] => True
  | afterOperand, operand e :: rest => afterOperand = false ∧ e.WellFormed ∧ Alternates true rest
  | _, operator .. :: rest => Alternates false rest

theorem Alternates.left {left right : List Term} {afterOperand : Bool} (h : Alternates afterOperand (left ++ right)) :
    Alternates afterOperand left := by
  fun_induction Alternates afterOperand left with
  | case1 => trivial
  | case2 afterOperand e rest ih => exact ⟨h.1, h.2.1, ih h.2.2⟩
  | case3 afterOperand op loc rest ih => exact ih h

theorem Alternates.right {left right : List Term} {op : Operator} {loc : Location} {afterOperand : Bool}
    (h : Alternates afterOperand (left ++ operator op loc :: right)) : Alternates false right := by
  fun_induction Alternates afterOperand left with
  | case1 => exact h
  | case2 afterOperand e rest ih => exact ih h.2.2
  | case3 afterOperand op loc rest ih => exact ih h

theorem tier_of_split? {first : Term} {rest : List Term} {s : Split} (h : split? first rest = some s) :
    s.op.tier ≠ none := by
  obtain ⟨s', hs', rfl⟩ := Option.map_eq_some_iff.1 h
  obtain ⟨tier, _, ht⟩ := List.exists_of_findSome?_eq_some hs'
  simp [(splitAtTier?_spec ht).2]

/-- What stands behind the operator of a split is not empty when the run ends in an operand. -/
theorem right_ne_nil_of_split? {first : Term} {rest : List Term} {s : Split} {e : Expr}
    (h : split? first rest = some s) (hl : (first :: rest).getLast (by simp) = operand e) : s.right ≠ [] := by
  intro hr
  have hrun := (split?_spec h).1
  rw [hr] at hrun
  simp [hrun] at hl

theorem resolve_yields {run : List Term} {afterOperand : Bool} (hne : run ≠ []) (h : Alternates afterOperand run) :
    Yields Expr.WellFormed (resolve run) := by
  fun_induction resolve run generalizing afterOperand with
  | case1 => exact absurd rfl hne
  | case2 first rest op loc hl => exact ⟨_, _, rfl⟩
  | case3 first e hl =>
    obtain rfl : first = operand e := by simpa using hl
    exact h.2.1
  | case4 first rest e hl hr s hs hlt hgt ihl ihr =>
    obtain ⟨hrun, hleft⟩ := split?_spec hs
    rw [hrun] at h
    refine (ihl hleft h.left).bind fun lhs hlhs => ?_
    refine (ihr (right_ne_nil_of_split? hs hl) h.right).bind fun rhs hrhs => ?_
    exact .binary (tier_of_split? hs) hlhs hrhs
  | case5 e op loc rest hs hu hr hl ih =>
    refine (ih hr h).bind fun operand hoperand => ?_
    exact .unary hu hoperand
  | case6 => exact ⟨_, _, rfl⟩
  | case7 => exact ⟨_, _, rfl⟩
  | case8 rest e hr e' hs hno hl =>
    cases rest with
    | nil => exact absurd rfl hr
    | cons t rest =>
      cases t with
      | operand e'' => exact absurd h.2.2.1 (by simp)
      | operator op loc => exact (hno op loc rest hs rfl HEq.rfl).elim

end Term
end FrontEnd
