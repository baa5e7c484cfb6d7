import FrontEnd.Proofs.Syntax.Introductions

/-!
# The name of the counting variable

The variable of a counting loop has a name that no token can spell, so it stands in a tree just where such loops have
put it.

* `Token.Ordinary`, `Token.ordinary_of_mem` : no identifier of a source is that name;
* `Expr.Hygienic` : trees in which only counting loops use the name, for themselves;
* `Expr.Hygienic.loop_of_mem_nodes` : a loop with a variable that is anywhere in such a tree is hygienic itself;
* `Introduced.hygienic`, `hygienic_of_readProgram` : programs are hygienic.
-/

namespace FrontEnd
open FrontEnd.Expr

/-! ## Identifiers -/

theorem Scan.isIdentStart_of_lexeme {c : Char} {cs : Text} (h : (lexeme c cs).1 = .identifier) : isIdentStart c := by
  unfold lexeme at h
  split at h
  · next found hsymbol =>
    obtain ⟨kind, more⟩ := found
    obtain rfl : kind = .identifier := h
    unfold symbol? at hsymbol
    split at hsymbol <;> simp at hsymbol
  · split_ifs at h with hstring hcharacter hdigit hword
    · unfold number at h
      dsimp only at h
      split at h <;> cases h
    · exact hword

/-- The token does not spell the name of the counting variable. -/
def Token.Ordinary (t : Token) : Prop := t.kind = .identifier → t.text ≠ countingVariable

/-- No program can write the name of the counting variable. -/
theorem Token.ordinary_of_mem {sources : List Source} {t : Token} (h : t ∈ (TokenStream.ofSources sources).toList) :
    t.Ordinary := by
  intro hk
  rcases List.mem_append.1 h with h | h
  · obtain ⟨source, -, hsource⟩ := List.mem_flatMap.1 h
    obtain ⟨c, rest, hkind, htext⟩ := Scan.exists_lexeme_of_mem_scanLines t hsource
    have hstart := Scan.isIdentStart_of_lexeme (hkind.symm.trans hk)
    rintro heq
    obtain ⟨rfl, -⟩ := List.cons.inj (htext.symm.trans heq)
    exact absurd hstart (by decide)
  · rw [List.mem_singleton.1 h] at hk
    cases hk

/-! ## Trees -/

namespace Expr

/-- Only counting loops use the name of the counting variable, to bind, test and step their own. -/
inductive Hygienic : Expr → Prop
  | literal {loc : Location} {value : Literal} : Hygienic (literal loc value)
  | name {loc : Location} {id : Text} (h : id ≠ countingVariable) : Hygienic (name loc id)
  | unary {loc : Location} {op : Operator} {operand : Expr} (h : Hygienic operand) : Hygienic (unary loc op operand)
  | binary {loc : Location} {op : Operator} {lhs rhs : Expr} (hl : Hygienic lhs) (hr : Hygienic rhs) :
    Hygienic (binary loc op lhs rhs)
  | letIn {loc : Location} {id : Text} {value : Expr} (hid : id ≠ countingVariable) (h : Hygienic value) :
    Hygienic (letIn loc id value)
  | ifThen {loc : Location} {test body : Expr} (ht : Hygienic test) (hb : Hygienic body) :
    Hygienic (ifThen loc test body)
  | ifElse {loc : Location} {test body orelse : Expr} (ht : Hygienic test) (hb : Hygienic body)
    (he : Hygienic orelse) : Hygienic (ifElse loc test body orelse)
  | whileLoop {loc : Location} {test body : Expr} (ht : Hygienic test) (hb : Hygienic body) :
    Hygienic (whileLoop loc test body)
  | rangeLoop {loc : Location} {var : Text} {start stop : Bound} {step : Option Expr} {body : Expr}
    (hvar : var ≠ countingVariable) (hs : ∀ e ∈ step, Hygienic e) (hb : Hygienic body) :
    Hygienic (rangeLoop loc var start stop step body)
  | countingLoop {loc : Location} {count body : Expr} (hc : Hygienic count) (hb : Hygienic body) :
    Hygienic (countingLoop loc count body)
  | block {loc : Location} {functions : List Function} {statements : List Expr}
    (hp : ∀ f ∈ functions, ∀ p ∈ f.signature.params, p.1 ≠ countingVariable)
    (hf : ∀ f ∈ functions, Hygienic f.body) (hs : ∀ e ∈ statements, Hygienic e) :
    Hygienic (block loc functions statements)
  | call {loc : Location} {callee : Text} {args : List Expr} (h : ∀ e ∈ args, Hygienic e) :
    Hygienic (call loc callee args)
  | funDecl {loc : Location} {id : Text} : Hygienic (funDecl loc id)

end Expr

/-- The parameters and the body of a function do not use the name of the counting variable. -/
structure Function.Hygienic (f : Function) : Prop where
  params : ∀ p ∈ f.signature.params, p.1 ≠ countingVariable
  body : f.body.Hygienic

namespace Expr.Hygienic
variable {loc : Location} {var : Text} {start stop : Bound} {step : Option Expr} {body : Expr}

/-- The parts that a loop over a range is given are hygienic as well. -/
theorem rangeStep (hs : ∀ e ∈ step, e.Hygienic) : (Expr.rangeStep loc start stop step).Hygienic := by
  unfold Expr.rangeStep
  cases step with
  | none => exact .literal
  | some amount =>
    dsimp only
    split
    · exact hs amount rfl
    · exact .unary (hs amount rfl)

/-- The parts of a loop with a variable are hygienic, unless it is a counting loop. -/
theorem forLoop_cases {varLoc : Location} {start test step : Expr}
    (h : (forLoop loc varLoc var start test step body).Hygienic) :
    (var ≠ countingVariable ∧ start.Hygienic ∧ test.Hygienic ∧ step.Hygienic ∧ body.Hygienic) ∨
      ∃ count, forLoop loc varLoc var start test step body = Expr.countingLoop loc count body ∧ count.Hygienic ∧
        body.Hygienic := by
  generalize he : forLoop loc varLoc var start test step body = e at h
  cases h with
  | rangeLoop hvar hs hb =>
    cases he
    exact .inl ⟨hvar, .literal, .binary (.name hvar) .literal, .binary (.name hvar) (.rangeStep hs), hb⟩
  | countingLoop hc hb =>
    cases he
    exact .inr ⟨_, rfl, hc, hb⟩
  | _ => cases he

/-- A hygienic node is a counting loop of hygienic parts, or none. -/
theorem counting_cases {e : Expr} (h : e.Hygienic) :
    (∃ loc count body, e = Expr.countingLoop loc count body ∧ count.Hygienic ∧ body.Hygienic) ∨
      ∀ loc count body, e ≠ Expr.countingLoop loc count body := by
  cases h with
  | countingLoop hc hb => exact .inl ⟨_, _, _, rfl, hc, hb⟩
  | rangeLoop hvar => exact .inr fun _ _ _ heq => hvar (Expr.forLoop.inj heq).2.2.1
  | _ => exact .inr fun _ _ _ heq => Expr.noConfusion heq

/-- The parts of a hygienic node are hygienic, unless it is a counting loop. -/
theorem children {e : Expr} (h : e.Hygienic) (hno : ∀ loc count body, e ≠ Expr.countingLoop loc count body) :
    ∀ part ∈ e.children, part.Hygienic := by
  cases h with
  | literal | name | funDecl => nofun
  | unary h | letIn _ h => exact List.forall_mem_singleton.2 h
  | binary h h' | ifThen h h' | whileLoop h h' => simp [Expr.children, h, h']
  | ifElse ht hb he => simp [Expr.children, ht, hb, he]
  | rangeLoop hvar hs hb =>
    rcases forLoop_cases (.rangeLoop hvar hs hb) with ⟨hvar, hs, ht, hi, hb⟩ | ⟨_, heq, -⟩
    · refine List.forall_mem_cons.2 ⟨.letIn hvar hs, List.forall_mem_cons.2 ⟨ht, ?_⟩⟩
      exact List.forall_mem_cons.2 ⟨hi, List.forall_mem_singleton.2 hb⟩
    · exact absurd heq (hno _ _ _)
  | countingLoop => exact absurd rfl (hno _ _ _)
  | block _ hf hs =>
    intro part hm
    rcases List.mem_append.1 hm with hm | hm
    · obtain ⟨f, hmem, rfl⟩ := List.mem_map.1 hm
      exact hf f hmem
    · exact hs part hm
  | call h => exact h

theorem parts_of_countingLoop {count : Expr} (h : (Expr.countingLoop loc count body).Hygienic) :
    count.Hygienic ∧ body.Hygienic := by
  rcases h.counting_cases with ⟨loc', count', body', heq, hc, hb⟩ | hno
  · cases heq
    exact ⟨hc, hb⟩
  · exact absurd rfl (hno _ _ _)

end Expr.Hygienic

/-! ### Loops of a tree -/

namespace Expr

/-- Whether a node is a loop with a variable. -/
def isForLoop : Expr → Bool
  | forLoop .. => true
  | _ => false

/-- A loop with a variable that is anywhere in a hygienic tree is hygienic. -/
theorem Hygienic.loop_of_mem_nodes {e : Expr} (h : e.Hygienic) {p : Path} :
    ∀ n ∈ nodes p e, n.2.isForLoop → n.2.Hygienic := by
  induction h generalizing p with
  | literal | name | funDecl => exact all_nodes nofun all_nil
  | unary _ ih | letIn _ _ ih => exact all_nodes nofun (all_cons ih all_nil)
  | binary _ _ ihl ihr | ifThen _ _ ihl ihr | whileLoop _ _ ihl ihr =>
    exact all_nodes nofun (all_cons ihl (all_cons ihr all_nil))
  | ifElse _ _ _ iht ihb ihe => exact all_nodes nofun (all_cons iht (all_cons ihb (all_cons ihe all_nil)))
  | call _ ih => exact all_nodes nofun (all_parts fun e he q => ih e he)
  | block _ _ _ ihf ihs =>
    refine all_nodes nofun (all_parts fun e he q => ?_)
    rcases List.mem_append.1 he with he | he
    · obtain ⟨f, hf, rfl⟩ := List.mem_map.1 he
      exact ihf f hf
    · exact ihs e he
  | countingLoop hc hb ihc ihb =>
    refine all_nodes (fun _ => .countingLoop hc hb) (all_cons ?binding (all_cons ?test (all_cons ?step
      (all_cons ihb all_nil))))
    case binding => exact all_nodes nofun (all_cons (all_nodes nofun all_nil) all_nil)
    case test => exact all_nodes nofun (all_cons (all_nodes nofun all_nil) (all_cons ihc all_nil))
    case step =>
      exact all_nodes nofun (all_cons (all_nodes nofun all_nil) (all_cons (all_nodes nofun all_nil) all_nil))
  | @rangeLoop loc var start stop step body hvar hs hb ihs ihb =>
    have hamount : ∀ {q : Path}, ∀ n ∈ nodes q (Expr.rangeStep loc start stop step), n.2.isForLoop → n.2.Hygienic := by
      unfold Expr.rangeStep
      cases step with
      | none => exact all_nodes nofun all_nil
      | some amount =>
        dsimp only
        split
        · exact ihs amount rfl
        · exact all_nodes nofun (all_cons (ihs amount rfl) all_nil)
    refine all_nodes (fun _ => .rangeLoop hvar hs hb) (all_cons ?binding (all_cons ?test (all_cons ?step
      (all_cons ihb all_nil))))
    case binding => exact all_nodes nofun (all_cons (all_nodes nofun all_nil) all_nil)
    case test =>
      exact all_nodes nofun (all_cons (all_nodes nofun all_nil) (all_cons (all_nodes nofun all_nil) all_nil))
    case step => exact all_nodes nofun (all_cons (all_nodes nofun all_nil) (all_cons hamount all_nil))

end Expr

/-! ## Programs -/

section
variable {ts : List Token}

theorem hygienic_of_spells {params : List (Text × Ty)}
    (h : List.Forall₂ (fun t (param : Text × Ty) => t.Spells param.1) ts params)
    (ht : ∀ t ∈ ts, t.Ordinary) : ∀ p ∈ params, p.1 ≠ countingVariable := by
  induction h with
  | nil => nofun
  | cons hspells _ ih =>
    obtain ⟨ht', hts⟩ := List.forall_mem_cons.1 ht
    exact List.forall_mem_cons.2 ⟨hspells.2 ▸ ht' hspells.1, ih hts⟩

theorem Heading.hygienic {s : Signature} (h : Heading ts s)
    (ht : ∀ t ∈ ts, t.Ordinary) : ∀ p ∈ s.params, p.1 ≠ countingVariable := by
  cases h with
  | mk hw hid hn hs =>
    have hnames := (List.forall_mem_cons.1 (List.forall_mem_cons.1 ht).2).2
    exact hygienic_of_spells hn (List.forall_mem_append.1 hnames).1

/-- A node in front of whose parts its token stands is hygienic if they are and the token is not the name. -/
theorem hygienic_of_leads {t : Token} {e : Expr} (h : t.Introduces e) (he : e.leads)
    (ht : t.Ordinary) (hs : ∀ part ∈ e.children, part.Hygienic) : e.Hygienic := by
  cases e with
  | literal => exact .literal
  | name loc id =>
    obtain ⟨-, hk, rfl⟩ := h
    exact .name (ht hk)
  | unary loc op operand => exact .unary (hs _ (by simp [children]))
  | ifThen loc test body => exact .ifThen (hs _ (by simp [children])) (hs _ (by simp [children]))
  | ifElse loc test body orelse =>
    exact .ifElse (hs _ (by simp [children])) (hs _ (by simp [children])) (hs _ (by simp [children]))
  | whileLoop loc test body => exact .whileLoop (hs _ (by simp [children])) (hs _ (by simp [children]))
  | call loc callee args => exact .call hs
  | _ => cases he

end

mutual

theorem Introduced.hygienic : ∀ {ts : List Token} {e : Expr}, Introduced ts e →
    (∀ t ∈ ts, t.Ordinary) → e.Hygienic
  | _, _, .leading ht he hs, hts => by
    obtain ⟨ht', hts⟩ := List.forall_mem_cons.1 hts
    exact hygienic_of_leads ht he ht' (hs.hygienic hts)
  | _, _, .binary hl _ hr, hts => by
    obtain ⟨hls, hts⟩ := List.forall_mem_append.1 hts
    exact .binary (hl.hygienic hls) (hr.hygienic (List.forall_mem_cons.1 hts).2)
  | _, _, .letIn _ hid _ hv, hts => by
    obtain ⟨-, hts⟩ := List.forall_mem_cons.1 hts
    obtain ⟨hid', hts⟩ := List.forall_mem_cons.1 hts
    exact .letIn (hid.2 ▸ hid' hid.1) (hv.hygienic (List.forall_mem_cons.1 hts).2)
  | _, _, .block _ hs, hts => by
    obtain ⟨hp, hf, hes⟩ := hs.hygienic (List.forall_mem_cons.1 hts).2
    exact .block hp hf hes
  | _, _, .rangeLoop _ hid _ _ hs hbody, hts => by
    obtain ⟨-, hts⟩ := List.forall_mem_cons.1 hts
    obtain ⟨hvar, hts⟩ := List.forall_mem_cons.1 hts
    obtain ⟨-, hts⟩ := List.forall_mem_cons.1 hts
    obtain ⟨hss, hbs⟩ := List.forall_mem_append.1 (List.forall_mem_cons.1 hts).2
    exact .rangeLoop (hvar hid) (fun e he => hs.hygienic hss e (Option.mem_toList.2 he)) (hbody.hygienic hbs)
  | _, _, .countingLoop _ hc hb, hts => by
    obtain ⟨hcs, hbs⟩ := List.forall_mem_append.1 (List.forall_mem_cons.1 hts).2
    exact .countingLoop (hc.hygienic hcs) (hb.hygienic hbs)

theorem IntroducedAll.hygienic : ∀ {ts : List Token} {es : List Expr}, IntroducedAll ts es →
    (∀ t ∈ ts, t.Ordinary) → ∀ e ∈ es, e.Hygienic
  | _, _, .nil, _ => nofun
  | _, _, .cons he hs, hts => by
    obtain ⟨hes, hss⟩ := List.forall_mem_append.1 hts
    exact List.forall_mem_cons.2 ⟨he.hygienic hes, hs.hygienic hss⟩

theorem IntroducedBlock.hygienic : ∀ {ts : List Token} {fs : List Function} {es : List Expr}, IntroducedBlock ts fs es →
    (∀ t ∈ ts, t.Ordinary) →
      (∀ f ∈ fs, ∀ p ∈ f.signature.params, p.1 ≠ countingVariable) ∧ (∀ f ∈ fs, f.body.Hygienic) ∧
        ∀ e ∈ es, e.Hygienic
  | _, _, _, .nil, _ => ⟨nofun, nofun, nofun⟩
  | _, _, _, .function hh hb hr, hts => by
    obtain ⟨hhs, hts⟩ := List.forall_mem_append.1 hts
    obtain ⟨hbs, hrs⟩ := List.forall_mem_append.1 hts
    obtain ⟨hp, hf, hes⟩ := hr.hygienic hrs
    exact ⟨List.forall_mem_cons.2 ⟨hh.hygienic hhs, hp⟩, List.forall_mem_cons.2 ⟨hb.hygienic hbs, hf⟩,
      List.forall_mem_cons.2 ⟨.funDecl, hes⟩⟩
  | _, _, _, .statement he hr, hts => by
    obtain ⟨hes', hrs⟩ := List.forall_mem_append.1 hts
    obtain ⟨hp, hf, hes⟩ := hr.hygienic hrs
    exact ⟨hp, hf, List.forall_mem_cons.2 ⟨he.hygienic hes', hes⟩⟩

end

theorem hygienic_of_readProgram {sources : List Source} {program : Expr}
    (h : readProgram (.ofSources sources) = .ok program) : program.Hygienic := by
  obtain ⟨first, fs, es, -, rfl, hblock⟩ :=
    ((readProgram_eq_ok_iff (TokenStream.kind_of_mem_ofSources sources) program).1 h).introduced
  obtain ⟨hp, hf, hes⟩ := hblock.hygienic fun t ht => Token.ordinary_of_mem (List.mem_filter.1 ht).1
  exact .block hp hf hes

end FrontEnd
