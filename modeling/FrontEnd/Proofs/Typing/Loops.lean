import FrontEnd.Proofs.Typing.Frames
import FrontEnd.Proofs.Typing.Limit

/-!
# Runs of loops

What happens when a loop that has been written in a short form is checked, in terms of the parts that are written.

* `typeOf_eq_ok_iff` and the like : what it takes for a check to come to an end, for the nodes that loops are given;
* `Env.started`, `Env.stepped` : the environments in which the written parts of a loop are typed;
* `countingLoop_run`, `rangeLoop_run` : a loop is checked just if these parts are, with the types they need.
-/

namespace FrontEnd

theorem Number.isNumeric_ty (n : Number) : n.literal.ty.isNumeric := by
  cases n <;> rfl

namespace Env

/-- `env` with the type of the node at `p` noted. -/
def noted (env : Env) (p : Path) (t : Ty) : Env := { env with notes := env.notes.setType p t }

/-- `env` with a new innermost frame in which `var` is bound. -/
def entered (env : Env) (var : Text) (t : Ty) : Env :=
  { env.enter with frames := { id := env.nextScope, vars := (∅ : Dictionary Ty).insert var t } :: env.frames }

/-- The environment in which the bound in the test of the loop at `p` is typed. -/
def started (env : Env) (p : Path) (var : Text) (t : Ty) : Env :=
  (((env.entered var t).noted (0 :: 0 :: p) t).noted (0 :: p) .unit).noted (0 :: 1 :: p) t

/-- The environment in which the body of the loop at `p` is typed, when `env` is the one behind what it steps by. -/
def stepped (env : Env) (p : Path) (t : Ty) : Env := (env.noted (0 :: 2 :: p) t).noted (2 :: p) .unit

end Env

namespace Typing
open Check Env FrontEnd.Expr

/-! ## Steps that come to an end -/

section
variable {α β : Type} {x : Check α} {f : α → Check β} {a : α} {b : β} {env env' : Env}

theorem bind_eq_ok_iff : (x >>= f) env = .ok b env' ↔ ∃ a env₁, x env = .ok a env₁ ∧ f a env₁ = .ok b env' := by
  rw [bind_apply]
  cases x env with
  | ok a env₁ => simp
  | error fault env₁ => simp

theorem inNewFrame_eq_ok_iff :
    inNewFrame x env = .ok a env' ↔ ∃ env₁, x env.enter = .ok a env₁ ∧ env' = env₁.leave := by
  unfold inNewFrame
  cases x env.enter with
  | ok a env₁ => simp [eq_comm]
  | error fault env₁ => simp

end

section
variable {limit : Nat} {p : Path} {loc loc' : Location} {e : Expr} {t : Ty} {env env' : Env}

theorem typeOf_eq_ok_iff : typeOf (limit + 1) p e env = .ok t env' ↔
    ∃ env₁, rule (walker limit) p e env = .ok t env₁ ∧ env' = env₁.noted p t := by
  show (rule (walker limit) p e >>= fun t => note p t >>= fun _ => pure t) env = _ ↔ _
  rw [bind_eq_ok_iff]
  constructor
  · rintro ⟨t', env₁, hrun, hend⟩
    cases hend
    exact ⟨env₁, hrun, rfl⟩
  · rintro ⟨env₁, hrun, rfl⟩
    exact ⟨t, env₁, hrun, rfl⟩

/-- A check that comes to an end does so within greater limits. -/
theorem typeOf_mono {limit' : Nat} (h : typeOf limit p e env = .ok t env') (hle : limit ≤ limit') :
    typeOf limit' p e env = .ok t env' := by
  rcases typeOf_approximates hle p e env with heq | ⟨env₁, herror⟩
  · exact heq ▸ h
  · cases h.symm.trans herror

theorem typeOf_number {n : Number} : typeOf (limit + 1) p (literal loc n.literal) env =
    .ok n.literal.ty (env.noted p n.literal.ty) := by
  cases n <;> rfl

theorem typeOf_name {id : Text} (h : env.lookupVar? id = some t) :
    typeOf (limit + 1) p (name loc id) env = .ok t (env.noted p t) := by
  refine typeOf_eq_ok_iff.2 ⟨env, ?_, rfl⟩
  rw [rule, get_bind_apply, h]
  rfl

theorem checkCondition_eq_ok_iff {w : Walker} {i : Nat} {statement : Conditional} {test : Expr} {u : Unit} :
    checkCondition w p i statement loc test env = .ok u env' ↔ w.typeOf (i :: p) test env = .ok .bool env' := by
  rw [checkCondition, bind_eq_ok_iff]
  constructor
  · rintro ⟨t, env₁, hrun, hend⟩
    by_cases ht : t = .bool
    · rw [if_neg (not_not_intro ht)] at hend
      cases hend
      exact ht ▸ hrun
    · rw [if_pos ht] at hend
      cases hend
  · exact fun hrun => ⟨.bool, env', hrun, rfl⟩

/-- The check of a loop with a variable, part by part. -/
theorem typeOf_forLoop_eq_ok_iff {varLoc : Location} {var : Text} {start test step body : Expr} :
    typeOf (limit + 1) p (forLoop loc varLoc var start test step body) env = .ok t env' ↔
      t = .unit ∧ ∃ bound env₁ env₂ stepped env₃ last env₄,
        typeOf limit (0 :: p) (letIn varLoc var start) env.enter = .ok bound env₁ ∧
        typeOf limit (1 :: p) test env₁ = .ok .bool env₂ ∧ typeOf limit (2 :: p) step env₂ = .ok stepped env₃ ∧
        typeOf limit (3 :: p) body env₃ = .ok last env₄ ∧ env' = env₄.leave.noted p .unit := by
  rw [typeOf_eq_ok_iff, rule, forRule]
  simp only [bind_eq_ok_iff, inNewFrame_eq_ok_iff, checkCondition_eq_ok_iff]
  constructor
  · rintro ⟨_, ⟨_, _, ⟨_, ⟨bound, env₁, hbound, _, env₂, htest, stepped, env₃, hstep, last, env₄, hbody, hend⟩, rfl⟩,
      hunit⟩, rfl⟩
    cases hend
    cases hunit
    exact ⟨rfl, bound, env₁, env₂, stepped, env₃, last, _, hbound, htest, hstep, hbody, rfl⟩
  · rintro ⟨rfl, bound, env₁, env₂, stepped, env₃, last, env₄, hbound, htest, hstep, hbody, rfl⟩
    exact ⟨_, ⟨(), _, ⟨_, ⟨bound, env₁, hbound, (), env₂, htest, stepped, env₃, hstep, last, env₄, hbody, rfl⟩, rfl⟩,
      rfl⟩, rfl⟩

end

/-! ## The nodes that loops are given -/

section
variable {limit : Nat} {p : Path} {loc loc' : Location} {rhs : Expr} {var : Text} {t t' : Ty} {env env' : Env}

theorem typeOf_comparison_eq_ok_iff {op : Operator} (hop : op = .less ∨ op = .greater)
    (hvar : env.lookupVar? var = some t) (hnum : t.isNumeric) :
    typeOf (limit + 2) p (binary loc op (name loc' var) rhs) env = .ok .bool env' ↔
      ∃ t' env₁, typeOf (limit + 1) (1 :: p) rhs (env.noted (0 :: p) t) = .ok t' env₁ ∧ t'.isNumeric ∧
        env' = env₁.noted p .bool := by
  have hresult : ∀ t', op.resultType? t t' = if t'.isNumeric then some .bool else none := by
    intro t'
    rcases hop with rfl | rfl <;> simp [Operator.resultType?, hnum]
  have hassign : ¬ op.isAssignment := by rcases hop with rfl | rfl <;> decide
  have htier : op.tier ≠ none := by rcases hop with rfl | rfl <;> decide
  have hleft : typeOf (limit + 1) (0 :: p) (name loc' var) env = .ok t (env.noted (0 :: p) t) := typeOf_name hvar
  rw [typeOf_eq_ok_iff, rule, binaryRule, if_neg hassign, if_neg htier]
  simp only [bind_eq_ok_iff]
  constructor
  · rintro ⟨env₂, ⟨_, _, hname, t', env₁, hrun, hend⟩, rfl⟩
    cases hleft.symm.trans hname
    by_cases ht : t'.isNumeric
    · rw [hresult, if_pos ht] at hend
      cases hend
      exact ⟨t', _, hrun, ht, rfl⟩
    · rw [hresult, if_neg ht] at hend
      cases hend
  · rintro ⟨t', env₁, hrun, ht, rfl⟩
    exact ⟨env₁, ⟨t, _, hleft, t', env₁, hrun, by rw [hresult, if_pos ht]; rfl⟩, rfl⟩

theorem typeOf_addAssign_eq_ok_iff : typeOf (limit + 1) p (binary loc .addAssign (name loc' var) rhs) env = .ok t env' ↔
    t = .unit ∧ ∃ t' env₁, typeOf limit (1 :: p) rhs env = .ok t' env₁ ∧ env₁.lookupVar? var = some t' ∧ t'.isNumeric ∧
      env' = (env₁.noted (0 :: p) t').noted p .unit := by
  have haccepts : ∀ declared value, Operator.acceptsValue .addAssign declared value = true ↔
      declared = value ∧ value.isNumeric := by
    intro declared value
    simp only [Operator.acceptsValue, Bool.and_eq_true, beq_iff_eq]
    exact ⟨fun h => ⟨h.2.symm, h.1⟩, fun h => ⟨h.2, h.1.symm⟩⟩
  rw [typeOf_eq_ok_iff, rule, binaryRule, if_pos (show Operator.isAssignment .addAssign by rfl), assignmentRule]
  simp only [bind_eq_ok_iff (x := Walker.typeOf _ _ _)]
  constructor
  · rintro ⟨_, ⟨value, env₁, hrun, hend⟩, rfl⟩
    rw [get_bind_apply] at hend
    cases hlookup : env₁.lookupVar? var with
    | none =>
      rw [hlookup] at hend
      cases hend
    | some declared =>
      rw [hlookup] at hend
      dsimp only at hend
      rw [bind_apply] at hend
      by_cases hvalue : Operator.acceptsValue .addAssign declared value = true
      · obtain ⟨rfl, hnum⟩ := (haccepts _ _).1 hvalue
        simp only [hvalue] at hend
        cases hend
        exact ⟨rfl, declared, env₁, hrun, hlookup, hnum, rfl⟩
      · simp only [Bool.eq_false_iff.2 hvalue] at hend
        cases hend
  · rintro ⟨rfl, t', env₁, hrun, hlookup, hnum, rfl⟩
    refine ⟨_, ⟨t', env₁, hrun, ?_⟩, rfl⟩
    rw [get_bind_apply, hlookup]
    dsimp only
    rw [bind_apply]
    simp only [(haccepts t' t').2 ⟨rfl, hnum⟩]
    rfl

theorem typeOf_subtract_eq_ok_iff : typeOf (limit + 1) p (unary loc .subtract rhs) env = .ok t env' ↔
    ∃ env₁, typeOf limit (0 :: p) rhs env = .ok t env₁ ∧ t.isNumeric ∧ env' = env₁.noted p t := by
  rw [typeOf_eq_ok_iff, rule, unaryRule]
  simp only [bind_eq_ok_iff (x := Walker.typeOf _ _ _)]
  constructor
  · rintro ⟨_, ⟨operand, env₁, hrun, hend⟩, rfl⟩
    by_cases ht : operand.isNumeric
    · simp only [Operator.isUnary, Operator.acceptsOperand, ht] at hend
      cases hend
      exact ⟨_, hrun, ht, rfl⟩
    · simp only [Operator.isUnary, Operator.acceptsOperand, ht] at hend
      cases hend
  · rintro ⟨env₁, hrun, ht, rfl⟩
    refine ⟨env₁, ⟨t, env₁, hrun, ?_⟩, rfl⟩
    simp only [Operator.isUnary, Operator.acceptsOperand, ht]
    rfl

end

/-! ## Loops -/

/-- The name is bound in the innermost frame, to `t`. -/
def BoundInnermost (env : Env) (var : Text) (t : Ty) : Prop :=
  ∃ f fs, env.frames = f :: fs ∧ f.vars.find? var = some t

namespace BoundInnermost
variable {limit : Nat} {p : Path} {e : Expr} {var : Text} {t t' : Ty} {env env' : Env}

theorem lookupVar? (h : BoundInnermost env var t) : env.lookupVar? var = some t := by
  obtain ⟨f, fs, hf, hvar⟩ := h
  rw [Env.lookupVar?, hf, List.findSome?_cons, hvar]

theorem entered : BoundInnermost (env.entered var t) var t :=
  ⟨_, _, rfl, Dictionary.find?_insert_self _ _ _⟩

theorem noted (h : BoundInnermost env var t) : BoundInnermost (env.noted p t') var t := h

/-- A check that comes to an end has not changed what was bound. -/
theorem typeOf (h : BoundInnermost env var t) (hrun : typeOf limit p e env = .ok t' env') :
    BoundInnermost env' var t := by
  obtain ⟨f, fs, hf, hvar⟩ := h
  obtain ⟨f', hf', hgains⟩ := (((walker_binds limit).typeOf p e).of_ok hrun).exists_gains hf
  exact ⟨f', fs, hf', hgains.types var t hvar⟩

end BoundInnermost

section
variable {limit : Nat} {p : Path} {loc varLoc : Location} {var : Text} {t : Ty} {env env' : Env} {body : Expr}

theorem typeOf_binding {n : Number} {loc' : Location} :
    typeOf (limit + 2) (0 :: p) (letIn loc var (literal loc' n.literal)) env.enter =
      .ok .unit (((env.entered var n.literal.ty).noted (0 :: 0 :: p) n.literal.ty).noted (0 :: p) .unit) := by
  cases n <;> rfl

/-- The check of a loop that starts at a number, compares and adds: the bound has to be a number and the amount has to
have the type of the start. -/
theorem loop_run {n : Number} {op : Operator} {loc₁ loc₂ loc₃ loc₄ loc₅ : Location} {bound amount : Expr}
    (hop : op = .less ∨ op = .greater) :
    typeOf (limit + 3) p (forLoop loc varLoc var (literal loc₁ n.literal) (binary loc₂ op (name loc₃ var) bound)
        (binary loc₄ .addAssign (name loc₅ var) amount) body) env = .ok t env' ↔
      t = .unit ∧ ∃ limiting env₁ env₂ last env₃,
        typeOf (limit + 1) (1 :: 1 :: p) bound (env.started p var n.literal.ty) = .ok limiting env₁ ∧
        limiting.isNumeric ∧
        typeOf (limit + 1) (1 :: 2 :: p) amount (env₁.noted (1 :: p) .bool) = .ok n.literal.ty env₂ ∧
        typeOf (limit + 2) (3 :: p) body (env₂.stepped p n.literal.ty) = .ok last env₃ ∧
        env' = env₃.leave.noted p .unit := by
  have hnum := n.isNumeric_ty
  have hentered : BoundInnermost
      (((env.entered var n.literal.ty).noted (0 :: 0 :: p) n.literal.ty).noted (0 :: p) .unit) var n.literal.ty :=
    BoundInnermost.entered.noted.noted
  rw [typeOf_forLoop_eq_ok_iff]
  constructor
  · rintro ⟨rfl, _, env₁, env₂, _, env₃, last, env₄, hbinding, htest, hstep, hbody, rfl⟩
    cases hbinding.symm.trans typeOf_binding
    obtain ⟨limiting, env₅, hbound, hlimiting, rfl⟩ :=
      (typeOf_comparison_eq_ok_iff hop hentered.lookupVar? hnum).1 htest
    obtain ⟨rfl, t, env₆, hamount, hvar, -, rfl⟩ := typeOf_addAssign_eq_ok_iff.1 hstep
    have hvar' := ((hentered.noted.typeOf hbound).noted.typeOf hamount).lookupVar?
    obtain rfl : t = n.literal.ty := Option.some.inj (hvar.symm.trans hvar')
    exact ⟨rfl, limiting, env₅, env₆, last, env₄, hbound, hlimiting, hamount, hbody, rfl⟩
  · rintro ⟨rfl, limiting, env₁, env₂, last, env₃, hbound, hlimiting, hamount, hbody, rfl⟩
    have hvar := ((hentered.noted.typeOf hbound).noted.typeOf hamount).lookupVar?
    refine ⟨rfl, .unit, _, env₁.noted (1 :: p) .bool, .unit, env₂.stepped p n.literal.ty, last, env₃, typeOf_binding,
      ?_, ?_, hbody, rfl⟩
    · exact (typeOf_comparison_eq_ok_iff hop hentered.lookupVar? hnum).2 ⟨limiting, env₁, hbound, hlimiting, rfl⟩
    · exact typeOf_addAssign_eq_ok_iff.2 ⟨rfl, n.literal.ty, env₂, hamount, hvar, hnum, rfl⟩

/-- The check of a counting loop: its count has to be a number. -/
theorem countingLoop_run {count : Expr} : typeOf (limit + 3) p (countingLoop loc count body) env = .ok t env' ↔
    t = .unit ∧ ∃ counted env₁ last env₂,
      typeOf (limit + 1) (1 :: 1 :: p) count (env.started p countingVariable .int) = .ok counted env₁ ∧
      counted.isNumeric ∧
      typeOf (limit + 2) (3 :: p) body (((env₁.noted (1 :: p) .bool).noted (1 :: 2 :: p) .int).stepped p .int) =
        .ok last env₂ ∧
      env' = env₂.leave.noted p .unit := by
  have hone : ∀ env₁ : Env, typeOf (limit + 1) (1 :: 2 :: p) (literal loc (.int 1)) (env₁.noted (1 :: p) .bool) =
      .ok .int ((env₁.noted (1 :: p) .bool).noted (1 :: 2 :: p) .int) := fun _ => rfl
  refine (loop_run (n := .int 0) (.inl rfl)).trans (and_congr_right fun _ => ?_)
  constructor
  · rintro ⟨counted, env₁, _, last, env₃, hcount, hcounted, hamount, hbody, hend⟩
    cases (hone env₁).symm.trans hamount
    exact ⟨counted, env₁, last, env₃, hcount, hcounted, hbody, hend⟩
  · rintro ⟨counted, env₁, last, env₂, hcount, hcounted, hbody, hend⟩
    exact ⟨counted, env₁, _, last, env₂, hcount, hcounted, hone env₁, hbody, hend⟩

/-- The check of a loop over a range: what it steps by has to have the type of the start. -/
theorem rangeLoop_run {a b : Bound} {step : Option Expr} :
    typeOf (limit + 3) p (rangeLoop loc var a b step body) env = .ok t env' ↔
      t = .unit ∧ ∃ env₁ last env₂,
        typeOf (limit + 1) (1 :: 2 :: p) (rangeStep loc a b step)
          (((env.started p var a.value.literal.ty).noted (1 :: 1 :: p) b.value.literal.ty).noted (1 :: p) .bool) =
            .ok a.value.literal.ty env₁ ∧
        typeOf (limit + 2) (3 :: p) body (env₁.stepped p a.value.literal.ty) = .ok last env₂ ∧
        env' = env₂.leave.noted p .unit := by
  have hop : (if runsUpwards a b then Operator.less else .greater) = .less ∨
      (if runsUpwards a b then Operator.less else .greater) = .greater := by
    split
    · exact .inl rfl
    · exact .inr rfl
  refine (loop_run hop).trans (and_congr_right fun _ => ?_)
  constructor
  · rintro ⟨_, _, env₁, last, env₂, hbound, -, hamount, hbody, hend⟩
    cases typeOf_number.symm.trans hbound
    exact ⟨env₁, last, env₂, hamount, hbody, hend⟩
  · rintro ⟨env₁, last, env₂, hamount, hbody, hend⟩
    refine ⟨_, _, env₁, last, env₂, typeOf_number, ?_, hamount, hbody, hend⟩
    cases b.value <;> rfl

end
end Typing
end FrontEnd
