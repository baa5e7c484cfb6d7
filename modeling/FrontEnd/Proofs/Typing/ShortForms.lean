import FrontEnd.Proofs.Typing.Hygiene
import FrontEnd.Proofs.Typing.Programs

/-!
# Loops as they are written

Loops over ranges and counting loops are checked as trees that no program spells out. Their checks come to an end just
if the parts that are written check one after the other in one new frame.

* `Checks` : a check that comes to an end, whatever its limit; `checks_iff_check` : for programs this is `check`;
* `LoopHead` : what is written in front of the body of a loop, and the loop that it stands for;
* `LoopHead.Opens` : what the head of a loop asks for, and the environment that the body is then checked in;
* `checks_rangeLoop_iff_opens`, `checks_countingLoop_iff_opens` : the two forms;
* `Ignores` : trees for which it does not matter whether a variable is bound around them; hygienic ones ignore the
  counting variable;
* `loops_check_as_written` : all loops of programs.
-/

namespace FrontEnd.Typing
open Check Env FrontEnd.Expr

/-! ## Checks without a limit -/

/-- The check of the tree at `p` comes to an end with the type `t`, if it may nest deep enough. -/
def Checks (p : Path) (e : Expr) (env : Env) (t : Ty) (env' : Env) : Prop := ∃ limit, typeOf limit p e env = .ok t env'

theorem checks_iff_check {tokens : TokenStream} {program : Expr} (h : readProgram tokens = .ok program) {t : Ty}
    {env : Env} : Checks programRoot program {} t env ↔ check programRoot program {} = .ok t env := by
  refine ⟨fun ⟨limit, hrun⟩ => ?_, fun hrun => ⟨_, hrun⟩⟩
  rw [← typeOf_eq_check (isProgram_of_readProgram h) (Nat.le_max_right limit _)]
  exact typeOf_mono hrun (Nat.le_max_left _ _)

section
variable {p : Path} {loc : Location} {e body : Expr} {var : Text} {a b : Bound} {step : Option Expr} {t : Ty}
variable {exact : Prop} {env env' env₁ : Env}

/-- Checks come to an end in twin environments as well. -/
theorem Checks.follows (h : Checks p e env t env₁) (hs : env.Sound) (ht : env.Twin exact env')
    (he : exact ∨ e.Hygienic) : env₁.Sound ∧ ∃ env₁', Checks p e env' t env₁' ∧ env₁.Twin exact env₁' := by
  obtain ⟨limit, hrun⟩ := h
  obtain ⟨-, env₁', hrun', hs₁, ht₁⟩ := (walker_follows limit).typeOf_of_ok he hs ht hrun
  exact ⟨hs₁, env₁', ⟨limit, hrun'⟩, ht₁⟩

theorem checks_rangeLoop_iff : Checks p (rangeLoop loc var a b step body) env t env' ↔
    t = .unit ∧ ∃ env₁ last env₂,
      Checks (1 :: 2 :: p) (rangeStep loc a b step)
        (((env.started p var a.value.literal.ty).noted (1 :: 1 :: p) b.value.literal.ty).noted (1 :: p) .bool)
        a.value.literal.ty env₁ ∧
      Checks (3 :: p) body (env₁.stepped p a.value.literal.ty) last env₂ ∧ env' = env₂.leave.noted p .unit := by
  constructor
  · rintro ⟨limit, hrun⟩
    obtain ⟨rfl, env₁, last, env₂, hstep, hbody, hend⟩ := rangeLoop_run.1 (typeOf_mono hrun (Nat.le_add_right limit 3))
    exact ⟨rfl, env₁, last, env₂, ⟨_, hstep⟩, ⟨_, hbody⟩, hend⟩
  · rintro ⟨rfl, env₁, last, env₂, ⟨m, hstep⟩, ⟨n, hbody⟩, hend⟩
    refine ⟨max m n + 3, rangeLoop_run.2 ⟨rfl, env₁, last, env₂, typeOf_mono hstep ?_, typeOf_mono hbody ?_, hend⟩⟩
    · omega
    · omega

theorem checks_countingLoop_iff {count : Expr} : Checks p (countingLoop loc count body) env t env' ↔
    t = .unit ∧ ∃ counted env₁ last env₂,
      Checks (1 :: 1 :: p) count (env.started p countingVariable .int) counted env₁ ∧ counted.isNumeric ∧
      Checks (3 :: p) body (((env₁.noted (1 :: p) .bool).noted (1 :: 2 :: p) .int).stepped p .int) last env₂ ∧
      env' = env₂.leave.noted p .unit := by
  constructor
  · rintro ⟨limit, hrun⟩
    obtain ⟨rfl, counted, env₁, last, env₂, hcount, hcounted, hbody, hend⟩ :=
      countingLoop_run.1 (typeOf_mono hrun (Nat.le_add_right limit 3))
    exact ⟨rfl, counted, env₁, last, env₂, ⟨_, hcount⟩, hcounted, ⟨_, hbody⟩, hend⟩
  · rintro ⟨rfl, counted, env₁, last, env₂, ⟨m, hcount⟩, hcounted, ⟨n, hbody⟩, hend⟩
    refine ⟨max m n + 3, countingLoop_run.2
      ⟨rfl, counted, env₁, last, env₂, typeOf_mono hcount ?_, hcounted, typeOf_mono hbody ?_, hend⟩⟩
    · omega
    · omega

end

/-! ## Heads of loops -/

theorem isNumeric_iff {t : Ty} : t.isNumeric ↔ t = .int ∨ t = .float := by
  cases t <;> simp [Ty.isNumeric]

/-- The path of what the range loop at `p` steps by, which stands under a minus if the range runs downwards. -/
def amountPath (p : Path) (start stop : Bound) : Path :=
  if runsUpwards start stop then 1 :: 2 :: p else 0 :: 1 :: 2 :: p

/-- The amount checks with the type `t`, if one is given. -/
def AmountChecks (p : Path) (t : Ty) : Option Expr → Env → Env → Prop
  | none, env, env' => env' = env
  | some amount, env, env' => Checks p amount env t env'

/-- What is written between `for` and the body of a loop. -/
inductive LoopHead where
  | range (var : Text) (start stop : Bound) (step : Option Expr)
  | counting (count : Expr)

namespace LoopHead

/-- The loop that is written with the head. -/
def loop (loc : Location) (body : Expr) : LoopHead → Expr
  | range var start stop step => rangeLoop loc var start stop step body
  | counting count => countingLoop loc count body

/-- The head of the loop at `p` checks, and `env'` is the environment for the body. In a new frame, in which only the
variable of a range is bound, what a range steps by has the type of its start, and a count is a number. -/
def Opens (p : Path) (env env' : Env) : LoopHead → Prop
  | range var start stop step => ∃ inner, env.enter.bindVar? var start.value.literal.ty = some inner ∧
      AmountChecks (amountPath p start stop) start.value.literal.ty step inner env'
  | counting count => ∃ t, (t = .int ∨ t = .float) ∧ Checks (1 :: 1 :: p) count env.enter t env'

/-- Loops with a variable in hygienic trees are written with some head. -/
theorem exists_loop_eq {e : Expr} (he : e.Hygienic) (hloop : e.isForLoop) :
    ∃ head loc body, e = loop loc body head := by
  cases he with
  | rangeLoop => exact ⟨range _ _ _ _, _, _, rfl⟩
  | countingLoop => exact ⟨counting _, _, _, rfl⟩
  | _ => cases hloop

end LoopHead

/-! ## Ranges -/

section
variable {p : Path} {loc : Location} {body : Expr} {var : Text} {a b : Bound} {step : Option Expr} {t : Ty}
variable {env env₁ : Env}

theorem checks_number_iff {n : Number} :
    Checks p (literal loc n.literal) env t env₁ ↔ t = n.literal.ty ∧ env₁ = env.noted p n.literal.ty := by
  constructor
  · rintro ⟨limit, hrun⟩
    cases typeOf_number.symm.trans (typeOf_mono hrun (Nat.le_succ limit))
    exact ⟨rfl, rfl⟩
  · rintro ⟨rfl, rfl⟩
    exact ⟨1, typeOf_number⟩

/-- A range whose step is left out steps by a number of the same kind as its start. -/
theorem rangeStep_none (loc : Location) (a b : Bound) : ∃ n : Number, rangeStep loc a b none = literal b.loc n.literal ∧
    n.literal.ty = a.value.literal.ty := by
  refine ⟨_, rfl, ?_⟩
  cases a.value <;> split <;> rfl

theorem checks_subtract_iff {e : Expr} : Checks p (unary loc .subtract e) env t env₁ ↔
    ∃ env₀, Checks (0 :: p) e env t env₀ ∧ t.isNumeric ∧ env₁ = env₀.noted p t := by
  constructor
  · rintro ⟨limit, hrun⟩
    obtain ⟨env₀, hoperand, hnum, hend⟩ := typeOf_subtract_eq_ok_iff.1 (typeOf_mono hrun (Nat.le_succ limit))
    exact ⟨env₀, ⟨limit, hoperand⟩, hnum, hend⟩
  · rintro ⟨env₀, ⟨limit, hoperand⟩, hnum, hend⟩
    exact ⟨limit + 1, typeOf_subtract_eq_ok_iff.2 ⟨env₀, hoperand, hnum, hend⟩⟩

/-- What a range steps by checks just if the amount does; when it is not the amount itself, its type is noted too. -/
theorem checks_rangeStep_iff : Checks (1 :: 2 :: p) (rangeStep loc a b step) env a.value.literal.ty env₁ ↔
    ∃ env₀, AmountChecks (amountPath p a b) a.value.literal.ty step env env₀ ∧
      env₁ = if step.isSome ∧ runsUpwards a b then env₀ else env₀.noted (1 :: 2 :: p) a.value.literal.ty := by
  cases step with
  | none =>
    obtain ⟨n, hn, hty⟩ := rangeStep_none loc a b
    rw [hn, checks_number_iff, hty]
    simp [AmountChecks]
  | some amount =>
    have hnum := a.value.isNumeric_ty
    by_cases hup : runsUpwards a b
    · simp [rangeStep, amountPath, AmountChecks, hup]
    · simp [rangeStep, amountPath, AmountChecks, hup, checks_subtract_iff, hnum]

/-- A loop over a range is checked as it is written: its frame is the one that it asks for, and notes do not matter. -/
theorem checks_rangeLoop_iff_opens (hs : env.Sound) :
    (∃ env', Checks p (rangeLoop loc var a b step body) env .unit env') ↔
      ∃ env₁ t env₂, (LoopHead.range var a b step).Opens p env env₁ ∧ Checks (3 :: p) body env₁ t env₂ := by
  constructor
  · rintro ⟨env', hrun⟩
    obtain ⟨-, env₁, last, env₂, hstep, hbody, -⟩ := checks_rangeLoop_iff.1 hrun
    have ht : (((env.started p var a.value.literal.ty).noted (1 :: 1 :: p) b.value.literal.ty).noted (1 :: p)
        .bool).Twin True (env.entered var a.value.literal.ty) := by
      simp only [started, Twin.noted_left, Twin.refl]
    obtain ⟨hs₁, env₁', hstep', ht₁⟩ := hstep.follows (hs.entered _ _).noted.noted.noted.noted.noted ht (.inl trivial)
    obtain ⟨env₀, hamount, rfl⟩ := checks_rangeStep_iff.1 hstep'
    have ht₀ : env₁.Twin True env₀ := by
      split at ht₁
      · exact ht₁
      · exact Twin.noted_right.1 ht₁
    obtain ⟨-, env₂', hbody', -⟩ :=
      hbody.follows hs₁.noted.noted (Twin.noted_left.2 (Twin.noted_left.2 ht₀)) (.inl trivial)
    exact ⟨env₀, last, env₂', ⟨_, rfl, hamount⟩, hbody'⟩
  · rintro ⟨env₀, last, env₂, ⟨inner, hinner, hamount⟩, hbody⟩
    obtain rfl : env.entered var a.value.literal.ty = inner := Option.some.inj hinner
    have hstep : Checks (1 :: 2 :: p) (rangeStep loc a b step) _ _ _ := checks_rangeStep_iff.2 ⟨env₀, hamount, rfl⟩
    have ht : (env.entered var a.value.literal.ty).Twin True (((env.started p var a.value.literal.ty).noted
        (1 :: 1 :: p) b.value.literal.ty).noted (1 :: p) .bool) := by
      simp only [started, Twin.noted_right, Twin.refl]
    obtain ⟨hs₁, env₁', hstep', ht₁⟩ := hstep.follows (hs.entered _ _) ht (.inl trivial)
    have hs₀ : env₀.Sound := by
      split at hs₁
      · exact hs₁
      · exact ⟨hs₁.frames, hs₁.captured⟩
    have ht₀ : env₀.Twin True env₁' := by
      split at ht₁
      · exact ht₁
      · exact Twin.noted_left.1 ht₁
    obtain ⟨-, env₂', hbody', -⟩ :=
      hbody.follows hs₀ (Twin.noted_right.2 (Twin.noted_right.2 ht₀)) (.inl trivial)
    exact ⟨_, checks_rangeLoop_iff.2 ⟨rfl, env₁', last, env₂', hstep', hbody', rfl⟩⟩

end

/-! ## Counts -/

section
variable {p : Path} {loc : Location} {count body : Expr} {env : Env}

/-- A counting loop of hygienic parts is checked as it is written: its parts do not see the variable, whose place is
taken by an empty frame. -/
theorem checks_countingLoop_iff_opens (hs : env.Sound) (hc : count.Hygienic) (hb : body.Hygienic) :
    (∃ env', Checks p (countingLoop loc count body) env .unit env') ↔
      ∃ env₁ t env₂, (LoopHead.counting count).Opens p env env₁ ∧ Checks (3 :: p) body env₁ t env₂ := by
  constructor
  · rintro ⟨env', hrun⟩
    obtain ⟨-, counted, env₁, last, env₂, hcount, hcounted, hbody, -⟩ := checks_countingLoop_iff.1 hrun
    have ht : (env.started p countingVariable .int).Twin False env.enter := by
      simp only [started, Twin.noted_left, Twin.entered_enter]
    obtain ⟨hs₁, env₁', hcount', ht₁⟩ := hcount.follows (hs.entered _ _).noted.noted.noted ht (.inr hc)
    have ht₁' : (((env₁.noted (1 :: p) .bool).noted (1 :: 2 :: p) .int).stepped p .int).Twin False env₁' := by
      simpa only [stepped, Twin.noted_left] using ht₁
    obtain ⟨-, env₂', hbody', -⟩ := hbody.follows hs₁.noted.noted.noted.noted ht₁' (.inr hb)
    exact ⟨env₁', last, env₂', ⟨counted, isNumeric_iff.1 hcounted, hcount'⟩, hbody'⟩
  · rintro ⟨env₁, last, env₂, ⟨counted, hcounted, hcount⟩, hbody⟩
    have ht : env.enter.Twin False (env.started p countingVariable .int) := by
      simp only [started, Twin.noted_right, Twin.enter_entered]
    obtain ⟨hs₁, env₁', hcount', ht₁⟩ := hcount.follows hs.enter ht (.inr hc)
    have ht₁' : env₁.Twin False (((env₁'.noted (1 :: p) .bool).noted (1 :: 2 :: p) .int).stepped p .int) := by
      simpa only [stepped, Twin.noted_right] using ht₁
    obtain ⟨-, env₂', hbody', -⟩ := hbody.follows hs₁ ht₁' (.inr hb)
    exact ⟨_, checks_countingLoop_iff.2
      ⟨rfl, counted, env₁', last, env₂', hcount', isNumeric_iff.2 hcounted, hbody', rfl⟩⟩

end

/-- A tree in a new frame neither sees nor changes `var` if that is bound there: with and without it the same types come
out, and in the end it is bound as it was. -/
def Ignores (e : Expr) (var : Text) (bound : Ty) : Prop :=
  ∀ (p : Path) (env inner : Env), env.Sound → env.enter.bindVar? var bound = some inner →
    (∀ t, (∃ env', Checks p e inner t env') ↔ ∃ env', Checks p e env.enter t env') ∧
      ∀ t env', Checks p e inner t env' → BoundInnermost env' var bound

theorem ignores_countingVariable {e : Expr} (he : e.Hygienic) (bound : Ty) : Ignores e countingVariable bound := by
  intro p env inner hs hinner
  obtain rfl : env.entered countingVariable bound = inner := Option.some.inj hinner
  refine ⟨fun t => ⟨fun ⟨env', hrun⟩ => ?_, fun ⟨env', hrun⟩ => ?_⟩, fun t env' ⟨limit, hrun⟩ => ?_⟩
  · obtain ⟨-, env₁, hrun', -⟩ := hrun.follows (hs.entered _ _) (Twin.entered_enter env bound) (.inr he)
    exact ⟨env₁, hrun'⟩
  · obtain ⟨-, env₁, hrun', -⟩ := hrun.follows hs.enter (Twin.enter_entered env bound) (.inr he)
    exact ⟨env₁, hrun'⟩
  · exact BoundInnermost.entered.typeOf hrun

/-! ## Programs -/

/-- All loops with a variable that are in a program have been written with a head, and they are checked, with the type
unit, just if the head and then the body checks, at any place and in any environment that is sound, as all are that the
operations make. The parts of a counting loop ignore its variable. -/
theorem loops_check_as_written {sources : List Source} {program : Expr}
    (h : readProgram (.ofSources sources) = .ok program) :
    (∀ n ∈ nodes programRoot program, n.2.isForLoop → ∃ head loc body, n.2 = LoopHead.loop loc body head) ∧
      (∀ q head loc body, (q, LoopHead.loop loc body head) ∈ nodes programRoot program →
        ∀ (p : Path) (env : Env), env.Sound →
          ((∃ env', Checks p (head.loop loc body) env .unit env') ↔
            ∃ env₁ t env₂, head.Opens p env env₁ ∧ Checks (3 :: p) body env₁ t env₂) ∧
          ∀ t env', Checks p (head.loop loc body) env t env' → t = .unit) ∧
      ∀ q loc count body, (q, countingLoop loc count body) ∈ nodes programRoot program →
        Ignores count countingVariable .int ∧ Ignores body countingVariable .int := by
  have hloop : ∀ n ∈ nodes programRoot program, n.2.isForLoop → n.2.Hygienic :=
    (hygienic_of_readProgram h).loop_of_mem_nodes
  have hparts : ∀ {q loc count body}, (q, countingLoop loc count body) ∈ nodes programRoot program →
      count.Hygienic ∧ body.Hygienic := fun hm => (hloop _ hm rfl).parts_of_countingLoop
  refine ⟨fun n hn hfor => LoopHead.exists_loop_eq (hloop n hn hfor) hfor, ?checks, ?ignores⟩
  case checks =>
    intro q head loc body hm p env hs
    cases head with
    | range var start stop step =>
      exact ⟨checks_rangeLoop_iff_opens hs, fun t env' hrun => (checks_rangeLoop_iff.1 hrun).1⟩
    | counting count =>
      obtain ⟨hc, hb⟩ := hparts hm
      exact ⟨checks_countingLoop_iff_opens hs hc hb, fun t env' hrun => (checks_countingLoop_iff.1 hrun).1⟩
  case ignores =>
    intro q loc count body hm
    obtain ⟨hc, hb⟩ := hparts hm
    exact ⟨ignores_countingVariable hc _, ignores_countingVariable hb _⟩

/-- A counting loop in another one, around a range that runs downwards by an amount that is stated. -/
theorem nestedLoops_check :
    let head : LoopHead := .range "i" ⟨⟨"m", 1, 25⟩, .int 3⟩ ⟨⟨"m", 1, 28⟩, .int 0⟩
      (some (.literal ⟨"m", 1, 31⟩ (.int 2)))
    let range : Expr := head.loop ⟨"m", 1, 17⟩ (.name ⟨"m", 1, 34⟩ "i")
    let inner : Expr := countingLoop ⟨"m", 1, 9⟩ (.literal ⟨"m", 1, 14⟩ (.int 1)) range
    let outer : Expr := countingLoop ⟨"m", 1, 1⟩ (.literal ⟨"m", 1, 6⟩ (.int 2)) inner
    let program : Expr := .block ⟨"m", 1, 1⟩ [] [outer]
    readProgram (.ofSources [⟨"for (2) for (1) for (i, 3, 0, 2) i", "m"⟩]) = .ok program ∧
      ({} : Env).Sound ∧ (∃ env, Checks [0, 0] outer {} .unit env) ∧ ∃ env, Checks [0, 0] range {} .unit env := by
  intro head range inner outer program
  have hread : readProgram (.ofSources [⟨"for (2) for (1) for (i, 3, 0, 2) i", "m"⟩]) = .ok program := by
    with_unfolding_all rfl
  have hs : ({} : Env).Sound := ⟨.nil, by simp⟩
  have houter : ([0, 0], outer) ∈ nodes programRoot program := part_mem_nodes (self_mem_nodes _ _) rfl
  have hrange : ([3, 3, 0, 0], range) ∈ nodes programRoot program := part_mem_nodes (part_mem_nodes houter rfl) rfl
  have hchecks := (loops_check_as_written hread).2.1
  refine ⟨hread, hs, ?outer, ?range⟩
  case outer =>
    refine (hchecks _ (.counting _) _ _ houter [0, 0] {} hs).1.2 ?_
    exact ⟨_, .unit, _, ⟨.int, .inl rfl, 1, rfl⟩, 20, rfl⟩
  case range =>
    refine (hchecks _ head _ _ hrange [0, 0] {} hs).1.2 ?_
    exact ⟨_, .int, _, ⟨_, rfl, 1, rfl⟩, 1, rfl⟩

end FrontEnd.Typing
