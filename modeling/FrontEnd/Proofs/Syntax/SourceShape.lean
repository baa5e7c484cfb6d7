import FrontEnd.Proofs.Syntax.Hygiene

/-!
# The shape of trees that are read

* `Expr.SourceShaped` : what holds of the tree of a source, node by node: declarations stand for functions, operators
  are used as such, and names and numbers that no source can write are those that loops have been given;
* `Expr.WellFormed.statement_of_declaration` : declarations are statements of blocks;
* `Introduced.countingVariable_notMem` : nodes that tokens introduce do not hold the name of the counting variable;
* `Expr.Supplies.cases_literal` : the names and numbers in nodes that loops are given;
* `readProgram_sourceShaped` : the tree of every source that is accepted has this shape.
-/

namespace FrontEnd
namespace Expr
variable {p q : Path} {e : Expr}

/-- Whether a node is a literal. -/
def isLiteral : Expr → Bool
  | literal .. => true
  | _ => false

/-- The node at `q` is a statement of a block. -/
def IsStatement (root : Path) (program : Expr) (q : Path) (e : Expr) : Prop :=
  ∃ p loc functions statements k, (p, block loc functions statements) ∈ nodes root program ∧
    statements[k]? = some e ∧ q = (functions.length + k) :: p

/-- The tree, whose root is at `root`, has the shape of those that sources are read as. -/
structure SourceShaped (root : Path) (program : Expr) : Prop where
  /-- The declarations among the statements of a block are those of its functions, in order. -/
  declared : ∀ p loc functions statements, (p, block loc functions statements) ∈ nodes root program →
    statements.filter isDeclaration = functions.map fun f => funDecl f.signature.loc f.signature.name
  declaration : ∀ q loc id, (q, funDecl loc id) ∈ nodes root program → IsStatement root program q (funDecl loc id)
  binary : ∀ q loc op lhs rhs, (q, binary loc op lhs rhs) ∈ nodes root program → op.tier ≠ none
  unary : ∀ q loc op operand, (q, unary loc op operand) ∈ nodes root program → op = .subtract ∨ op = .not
  literal : ∀ q loc value, (q, literal loc value) ∈ nodes root program → value ≠ .unit
  params : ∀ p loc functions statements, (p, block loc functions statements) ∈ nodes root program →
    ∀ f ∈ functions, ∀ param ∈ f.signature.params, param.2 ∈ [Ty.int, .float, .bool, .char, .str, .unit]
  /-- Only counting loops hold the name of the counting variable, to bind, test and step it. -/
  counting : ∀ q e, (q, e) ∈ nodes root program → countingVariable ∈ e.names → ∃ p loc count body,
    (p, countingLoop loc count body) ∈ nodes root program ∧ q ∈ [0 :: p, 0 :: 1 :: p, 0 :: 2 :: p]
  /-- A number below zero is the amount that a loop has been given which runs downwards. -/
  integer : ∀ q loc n, (q, Expr.literal loc (.int n)) ∈ nodes root program → 0 ≤ n ∨ n = -1 ∧
    ∃ p loopLoc var start stop body, (p, rangeLoop loopLoc var start stop none body) ∈ nodes root program ∧
      runsUpwards start stop = false ∧ q = 1 :: 2 :: p

/-! ## Declarations -/

theorem IsStatement.of_part {part : Expr} {j : Nat} (hj : e.children[j]? = some part) {d : Expr}
    (h : IsStatement (j :: p) part q d) : IsStatement p e q d := by
  obtain ⟨r, loc, functions, statements, k, hblock, hk, rfl⟩ := h
  exact ⟨r, loc, functions, statements, k, mem_nodes.2 (.inr ⟨j, part, hj, hblock⟩), hk, rfl⟩

/-- A declaration that is part of a well-formed node is a statement of it. -/
theorem WellFormed.statement_of_part {part : Expr} {j : Nat} (h : e.WellFormed) (hj : e.children[j]? = some part)
    (hd : part.isDeclaration) : IsStatement p e (j :: p) part := by
  have hwrong : ¬ part.WellFormed := fun hpart => by simp [hpart.isDeclaration_eq_false] at hd
  cases e with
  | block loc functions statements =>
    rw [children] at hj
    rcases Nat.lt_or_ge j (functions.map (·.body)).length with hlt | hge
    · rw [List.getElem?_append_left hlt] at hj
      obtain ⟨f, hf, rfl⟩ := List.mem_map.1 (List.mem_of_getElem? hj)
      exact absurd (h.body hf) hwrong
    · rw [List.getElem?_append_right hge] at hj
      rw [List.length_map] at hge hj
      have hposition : j :: p = (functions.length + (j - functions.length)) :: p := by rw [Nat.add_sub_cancel' hge]
      exact ⟨p, loc, functions, statements, _, self_mem_nodes _ _, hj, hposition⟩
  | _ => exact absurd (h.of_mem_children_of_ne_block (by simp) (List.mem_of_getElem? hj)) hwrong

/-- The declarations of a well-formed tree are statements of its blocks. -/
theorem WellFormed.statement_of_declaration {loc : Location} {id : Text} (h : e.WellFormed)
    (hn : (q, funDecl loc id) ∈ nodes p e) : IsStatement p e q (funDecl loc id) := by
  induction hc : e.nodeCount using Nat.strongRecOn generalizing p e with
  | ind c ih =>
    rcases mem_nodes.1 hn with heq | ⟨j, part, hj, hn⟩
    · obtain ⟨rfl, rfl⟩ := Prod.mk.inj heq
      exact absurd h.isDeclaration_eq_false (by simp [isDeclaration])
    · cases hd : part.isDeclaration with
      | false =>
        have hpart := h.of_mem_children (List.mem_of_getElem? hj) hd
        exact (ih _ (hc ▸ nodeCount_lt_of_mem_children hj) hpart hn rfl).of_part hj
      | true =>
        obtain ⟨rfl, rfl⟩ := Prod.mk.inj (eq_of_mem_nodes_declaration hd hn)
        exact h.statement_of_part hj hd

end Expr

/-! ## Names -/

section
open FrontEnd.Expr
variable {ts : List Token}

theorem Heading.name_ne {s : Signature} (h : Heading ts s) (ht : ∀ t ∈ ts, t.Ordinary) : s.name ≠ countingVariable := by
  cases h with
  | mk hw hid hn hs =>
    have hordinary := (List.forall_mem_cons.1 (List.forall_mem_cons.1 ht).2).1
    exact hid.2 ▸ hordinary hid.1

/-- Each function of a block has a heading. -/
theorem IntroducedBlock.exists_heading : ∀ {ts : List Token} {fs : List Function} {es : List Expr},
    IntroducedBlock ts fs es → ∀ f ∈ fs, ∃ hs, hs ⊆ ts ∧ Heading hs f.signature
  | _, _, _, .nil => List.forall_mem_nil _
  | _, _, _, .function hh _ hr => by
    refine List.forall_mem_cons.2 ⟨⟨_, List.subset_append_left _ _, hh⟩, fun f hf => ?_⟩
    obtain ⟨hs, hsub, hheading⟩ := hr.exists_heading f hf
    exact ⟨hs, fun t ht => List.mem_append_right _ (List.mem_append_right _ (hsub ht)), hheading⟩
  | _, _, _, .statement _ hr => by
    intro f hf
    obtain ⟨hs, hsub, hheading⟩ := hr.exists_heading f hf
    exact ⟨hs, fun t ht => List.mem_append_right _ (hsub ht), hheading⟩

theorem IntroducedBlock.countingVariable_notMem {fs : List Function} {es : List Expr} {loc : Location}
    (h : IntroducedBlock ts fs es) (ht : ∀ t ∈ ts, t.Ordinary) : countingVariable ∉ (block loc fs es).names := by
  intro hm
  obtain ⟨f, hf, hm⟩ := List.mem_flatMap.1 hm
  obtain ⟨hs, hsub, hheading⟩ := h.exists_heading f hf
  have hordinary : ∀ t ∈ hs, t.Ordinary := fun t hmem => ht t (hsub hmem)
  rcases List.mem_cons.1 hm with heq | hm
  · exact hheading.name_ne hordinary heq.symm
  · obtain ⟨param, hparam, heq⟩ := List.mem_map.1 hm
    exact hheading.hygienic hordinary param hparam heq

/-- A node that tokens introduce does not hold the name of the counting variable itself. -/
theorem Introduced.countingVariable_notMem {e : Expr} (h : Introduced ts e) (ht : ∀ t ∈ ts, t.Ordinary) :
    countingVariable ∉ e.names := by
  cases h with
  | @leading t _ _ hw he _ =>
    have hordinary := (List.forall_mem_cons.1 ht).1
    cases e with
    | name | call =>
      obtain ⟨-, hk, rfl⟩ := hw
      exact fun hm => hordinary hk (List.mem_singleton.1 hm).symm
    | literal | unary | ifThen | ifElse | whileLoop => exact List.not_mem_nil
    | _ => cases he
  | letIn _ hid _ _ =>
    have hordinary := (List.forall_mem_cons.1 (List.forall_mem_cons.1 ht).2).1
    exact fun hm => hordinary hid.1 (hid.2.trans (List.mem_singleton.1 hm).symm)
  | block _ hs => exact hs.countingVariable_notMem (List.forall_mem_cons.1 ht).2
  | binary | rangeLoop | countingLoop => exact List.not_mem_nil

end

/-! ## What loops are given -/

section
open FrontEnd.Expr
variable {root p q : Path} {program e loop : Expr} {t : Token}

/-- Of the binding, the test and the step of a loop, the binding and the operands in front hold its variable. -/
theorem Expr.names_of_parts {loc varLoc testLoc stepLoc loc₁ loc₂ : Location} {var : Text}
    {start stop amount body : Expr} {test step : Operator}
    (hn : (p, forLoop loc varLoc var start (binary testLoc test (name loc₁ var) stop)
      (binary stepLoc step (name loc₂ var) amount) body) ∈ nodes root program)
    (he : (q, e) ∈ nodes root program) (hq : q ∈ [0 :: p, 1 :: p, 2 :: p, 0 :: 1 :: p, 0 :: 2 :: p]) :
    e.isLiteral = false ∧ (e.names = [] ∨ e.names = [var] ∧ q ∈ [0 :: p, 0 :: 1 :: p, 0 :: 2 :: p]) := by
  have htest : (1 :: p, binary testLoc test (name loc₁ var) stop) ∈ nodes root program := part_mem_nodes hn rfl
  have hstep : (2 :: p, binary stepLoc step (name loc₂ var) amount) ∈ nodes root program := part_mem_nodes hn rfl
  simp only [List.mem_cons, List.not_mem_nil, or_false] at hq
  rcases hq with rfl | rfl | rfl | rfl | rfl
  · obtain rfl := nodes_unique he (part_mem_nodes hn rfl)
    exact ⟨rfl, .inr ⟨rfl, by simp⟩⟩
  · obtain rfl := nodes_unique he htest
    exact ⟨rfl, .inl rfl⟩
  · obtain rfl := nodes_unique he hstep
    exact ⟨rfl, .inl rfl⟩
  · obtain rfl := nodes_unique he (part_mem_nodes htest rfl)
    exact ⟨rfl, .inr ⟨rfl, by simp⟩⟩
  · obtain rfl := nodes_unique he (part_mem_nodes hstep rfl)
    exact ⟨rfl, .inr ⟨rfl, by simp⟩⟩

/-- The amount that a loop steps by. -/
theorem Expr.amount_mem_nodes {loc varLoc stepLoc : Location} {var : Text} {start test target amount body : Expr}
    {step : Operator} (hn : (p, forLoop loc varLoc var start test (binary stepLoc step target amount) body) ∈
      nodes root program) : (1 :: 2 :: p, amount) ∈ nodes root program := by
  have hstep : (2 :: p, binary stepLoc step target amount) ∈ nodes root program := part_mem_nodes hn rfl
  exact part_mem_nodes hstep rfl

/-- An amount that is not stated is one, or minus one. -/
theorem int_of_unstated {up : Bool} {x : Number} {n : Int} (h : (if up then x.one else x.one.negate).literal = .int n) :
    0 ≤ n ∨ n = -1 ∧ up = false := by
  cases up with
  | true =>
    cases x with
    | int => exact .inl (Literal.int.inj h ▸ Int.zero_le_ofNat 1)
    | float => cases h
  | false =>
    cases x with
    | int => exact .inr ⟨(Literal.int.inj h).symm, rfl⟩
    | float => cases h

/-- A node that a loop has been given is a literal without a name, or one of the others, of which three hold the
variable of the loop. -/
theorem Expr.Supplies.cases_literal (hs : Supplies p loop q t) (hn : (p, loop) ∈ nodes root program)
    (he : (q, e) ∈ nodes root program) :
    (∃ loc value, e = literal loc value ∧ ∀ n, value = .int n → 0 ≤ n ∨ n = -1 ∧ ∃ loopLoc var start stop body,
      loop = rangeLoop loopLoc var start stop none body ∧ runsUpwards start stop = false ∧ q = 1 :: 2 :: p) ∨
    e.isLiteral = false ∧ ∃ loc varLoc var start test step body, loop = forLoop loc varLoc var start test step body ∧
      (e.names = [] ∨ e.names = [var] ∧ q ∈ [0 :: p, 0 :: 1 :: p, 0 :: 2 :: p]) := by
  cases hs with
  | counting hw hq =>
    have hbinding : (0 :: p, letIn _ countingVariable (literal _ (.int 0))) ∈ nodes root program :=
      part_mem_nodes hn rfl
    simp only [List.mem_cons, List.not_mem_nil, or_false] at hq
    rcases hq with rfl | rfl | rfl | rfl | rfl | rfl | rfl
    case inr.inl =>
      obtain rfl := nodes_unique he (part_mem_nodes hbinding rfl)
      exact .inl ⟨_, _, rfl, fun n hn => .inl (Literal.int.inj hn ▸ Int.le_refl 0)⟩
    case inr.inr.inr.inr.inr.inr =>
      obtain rfl := nodes_unique he (amount_mem_nodes hn)
      exact .inl ⟨_, _, rfl, fun n hn => .inl (Literal.int.inj hn ▸ Int.zero_le_ofNat 1)⟩
    all_goals
      obtain ⟨hliteral, hnames⟩ := names_of_parts hn he (by simp)
      exact .inr ⟨hliteral, _, _, _, _, _, _, _, rfl, hnames⟩
  | start ha hq =>
    have hpart : q ∈ [0 :: p, 1 :: p, 2 :: p, 0 :: 1 :: p, 0 :: 2 :: p] := by
      rcases List.mem_pair.1 hq with rfl | rfl <;> simp
    obtain ⟨hliteral, hnames⟩ := names_of_parts hn he hpart
    exact .inr ⟨hliteral, _, _, _, _, _, _, _, rfl, hnames⟩
  | stop hb hq =>
    have hpart : q ∈ [0 :: p, 1 :: p, 2 :: p, 0 :: 1 :: p, 0 :: 2 :: p] := by
      simp only [List.mem_cons, List.not_mem_nil, or_false] at hq
      rcases hq with rfl | rfl | rfl <;> simp
    obtain ⟨hliteral, hnames⟩ := names_of_parts hn he hpart
    exact .inr ⟨hliteral, _, _, _, _, _, _, _, rfl, hnames⟩
  | one hb =>
    obtain rfl := nodes_unique he (amount_mem_nodes hn)
    refine .inl ⟨_, _, rfl, fun n hn => (int_of_unstated hn).imp_right ?_⟩
    rintro ⟨hminus, hdown⟩
    exact ⟨hminus, _, _, _, _, _, rfl, hdown, rfl⟩
  | sign hw hdown =>
    obtain rfl := nodes_unique he (amount_mem_nodes hn)
    rw [rangeStep_downwards hdown]
    exact .inr ⟨rfl, _, _, _, _, _, _, _, rfl, .inl rfl⟩

end

/-! ## Programs -/

section
open FrontEnd.Expr
variable {tokens : List Token} {root q : Path} {program e : Expr}

theorem Expr.WellFormed.of_mem {e' : Expr} (h : program.WellFormed) (hn : (q, e') ∈ nodes root program)
    (hd : e'.isDeclaration = false) : e'.WellFormed :=
  (h.of_mem_nodes hn).resolve_left (by simp [hd])

/-- The name of the counting variable is in a node just if a counting loop has been given it. -/
theorem Expr.Origin.counting (ht : ∀ t ∈ tokens, t.Ordinary) (hprogram : program.Hygienic)
    (h : Origin tokens root program (q, e)) (he : (q, e) ∈ nodes root program) (hm : countingVariable ∈ e.names) :
    ∃ p loc count body, (p, countingLoop loc count body) ∈ nodes root program ∧
      q ∈ [0 :: p, 0 :: 1 :: p, 0 :: 2 :: p] := by
  cases h with
  | introduced hts h => exact absurd hm (h.countingVariable_notMem fun t hmem => ht t (hts hmem))
  | declared hts h =>
    exact absurd (List.mem_singleton.1 hm).symm (h.name_ne fun t hmem => ht t (hts hmem))
  | @supplied t p q e loop ht' hl hd hn hs =>
    rcases hs.cases_literal hn he with ⟨_, value, rfl, -⟩ | ⟨-, loc, _, var, _, _, _, body, rfl, hnames⟩
    · exact absurd hm List.not_mem_nil
    · rcases hnames with hnone | ⟨hvar, hq⟩
      · exact absurd (hnone ▸ hm) List.not_mem_nil
      · have hcounts : countingVariable = var := List.mem_singleton.1 (hvar ▸ hm)
        rcases (hprogram.loop_of_mem_nodes _ hn rfl).forLoop_cases with ⟨hne, -⟩ | ⟨count, heq, -⟩
        · exact absurd hcounts.symm hne
        · exact ⟨p, loc, count, body, heq ▸ hn, hq⟩

/-- A whole number that is below zero has been given to a loop that runs downwards. -/
theorem Expr.Origin.integer {loc : Location} {n : Int} (h : Origin tokens root program (q, Expr.literal loc (.int n)))
    (he : (q, Expr.literal loc (.int n)) ∈ nodes root program) : 0 ≤ n ∨ n = -1 ∧
      ∃ p loopLoc var start stop body, (p, rangeLoop loopLoc var start stop none body) ∈ nodes root program ∧
        runsUpwards start stop = false ∧ q = 1 :: 2 :: p := by
  cases h with
  | introduced hts h =>
    obtain ⟨t, -, -, hvalue⟩ := exists_introducing h
    exact .inl ((Literal.int_of_ofToken hvalue).1 ▸ Int.natCast_nonneg _)
  | @supplied t p q e loop ht' hl hd hn hs =>
    rcases hs.cases_literal hn he with ⟨loc', value, heq, hint⟩ | ⟨hliteral, -⟩
    · obtain ⟨-, rfl⟩ := Expr.literal.inj heq
      refine (hint n rfl).imp_right ?_
      rintro ⟨hminus, loopLoc, var, start, stop, body, rfl, hdown, hq⟩
      exact ⟨hminus, p, loopLoc, var, start, stop, body, hn, hdown, hq⟩
    · cases hliteral

/-- The nodes below the root of a program have origins, and its own functions have headings. -/
theorem origin_of_readProgram {sources : List Source} (h : readProgram (.ofSources sources) = .ok program)
    (root : Path) : ∃ loc fs es, program = block loc fs es ∧
      IntroducedBlock (Token.introducing (TokenStream.ofSources sources).toList) fs es ∧
      ∀ n ∈ nodesOf root 0 (block loc fs es).children,
        Origin (TokenStream.ofSources sources).toList root (block loc fs es) n := by
  obtain ⟨first, fs, es, -, rfl, hblock⟩ :=
    ((readProgram_eq_ok_iff (TokenStream.kind_of_mem_ofSources sources) program).1 h).introduced
  refine ⟨first.loc, fs, es, rfl, hblock, ?_⟩
  exact located_children (self_mem_nodes _ _) (hblock.origin_parts (List.filter_subset_self _))

/-- The tree of every source that is accepted has the shape of one: its declarations stand for its functions, operators
are used as such, and the name of the counting variable and numbers below zero are only where loops have been given
them. -/
theorem readProgram_sourceShaped {sources : List Source} {program : Expr}
    (h : readProgram (.ofSources sources) = .ok program) (root : Path) : program.SourceShaped root := by
  have hwellFormed : program.WellFormed := by
    have hyields := readProgram_yields (.ofSources sources)
    rw [h] at hyields
    exact hyields.1
  have node : ∀ {q e}, (q, e) ∈ nodes root program → e.isDeclaration = false → e.WellFormed := hwellFormed.of_mem
  have hhygienic := hygienic_of_readProgram h
  have hordinary : ∀ t ∈ (TokenStream.ofSources sources).toList, t.Ordinary := fun t => Token.ordinary_of_mem
  obtain ⟨programLoc, programFunctions, programStatements, rfl, hblock, horigin⟩ := origin_of_readProgram h root
  constructor
  case declared =>
    intro p loc functions statements hn
    cases node hn rfl with
    | block _ _ _ hd => exact hd
  case declaration => exact fun q loc id hn => hwellFormed.statement_of_declaration hn
  case binary =>
    intro q loc op lhs rhs hn
    cases node hn rfl with
    | binary hop _ _ => exact hop
  case unary =>
    intro q loc op operand hn
    cases node hn rfl with
    | unary hop _ => cases op <;> simp [Operator.isUnary] at hop ⊢
  case literal =>
    intro q loc value hn
    cases node hn rfl with
    | literal hvalue => exact hvalue
  case params =>
    intro p loc functions statements hn f hf param hparam
    cases node hn rfl with
    | block hp _ _ _ =>
      have hne := hp f hf param hparam
      cases hty : param.2 <;> simp [hty] at hne ⊢
  case counting =>
    intro q e hn hm
    rw [nodes, List.mem_cons] at hn
    rcases hn with heq | hbelow
    · obtain ⟨rfl, rfl⟩ := Prod.mk.inj heq
      exact absurd hm (hblock.countingVariable_notMem fun t ht => hordinary t (List.mem_filter.1 ht).1)
    · refine (horigin _ hbelow).counting hordinary hhygienic ?_ hm
      rw [nodes]
      exact .tail _ hbelow
  case integer =>
    intro q loc n hn
    have hbelow := hn
    rw [nodes, List.mem_cons] at hbelow
    rcases hbelow with heq | hbelow
    · cases (Prod.mk.inj heq).2
    · exact (horigin _ hbelow).integer hn

/-- A function, and a loop that counts down inside one that counts. -/
theorem readProgram_sourceShaped_downwards :
    let sources : List Source := [⟨"fun f(x: int) = -x; for (2) for (i, 3, 0) f(i)", "m"⟩]
    let f : Function := ⟨⟨"f", ⟨"m", 1, 1⟩, [("x", .int)], .any⟩,
      .unary ⟨"m", 1, 17⟩ .subtract (.name ⟨"m", 1, 18⟩ "x")⟩
    let inner : Expr := rangeLoop ⟨"m", 1, 29⟩ "i" ⟨⟨"m", 1, 37⟩, .int 3⟩ ⟨⟨"m", 1, 40⟩, .int 0⟩ none
      (.call ⟨"m", 1, 43⟩ "f" [.name ⟨"m", 1, 45⟩ "i"])
    let program : Expr := .block ⟨"m", 1, 1⟩ [f]
      [.funDecl ⟨"m", 1, 1⟩ "f", countingLoop ⟨"m", 1, 21⟩ (.literal ⟨"m", 1, 26⟩ (.int 2)) inner]
    readProgram (.ofSources sources) = .ok program ∧ program.SourceShaped [0] ∧
      ([1, 2, 3, 2, 0], .literal ⟨"m", 1, 40⟩ (.int (-1))) ∈ nodes [0] program := by
  intro sources f inner program
  have hread : readProgram (.ofSources sources) = .ok program := by with_unfolding_all rfl
  have hinner : ([3, 2, 0], inner) ∈ nodes [0] program :=
    part_mem_nodes (part_mem_nodes (self_mem_nodes [0] program) rfl) rfl
  have hone : rangeStep ⟨"m", 1, 29⟩ ⟨⟨"m", 1, 37⟩, .int 3⟩ ⟨⟨"m", 1, 40⟩, .int 0⟩ none =
      .literal ⟨"m", 1, 40⟩ (.int (-1)) := by with_unfolding_all rfl
  exact ⟨hread, readProgram_sourceShaped hread [0], hone ▸ amount_mem_nodes hinner⟩

end

end FrontEnd
