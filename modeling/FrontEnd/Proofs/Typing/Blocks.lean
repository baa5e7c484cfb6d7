import FrontEnd.Proofs.Typing.Functions

/-!
# The rule for blocks

Registering the functions of a block, and typing its statements where they are visible.

* `Simulates.typeStatements` : statements, of which some are declarations;
* `Registered.declarable_or` : if a function that is registered would not pass its declaration, then neither would the
  block, since it declares all its functions;
* `Simulates.blockRule` : the rule.
-/

namespace FrontEnd.Typing
open FrontEnd.Expr Env Check

variable {root : Path} {program : Expr} {n : Notes} {t : Trail} {w : Walker} {p : Path} {env env' : Env}
variable {functions : List Function} {statements : List Expr} {funs : Dictionary Nat}

theorem Simulates.typeStatements {declarations : List (Text × Judge Ty)} {i : Nat} {last : Ty} (hlast : last ≠ .any)
    (hs : ∀ k e env', statements[k]? = some e → Extends env env' →
      Simulates root program n t (w.typeOf ((i + k) :: p) e) env'
        (Judge.statement declarations (settle n ((i + k) :: p) e) (Judge.typeOf (settle n ((i + k) :: p) e)))
        fun ty _ => ty ≠ .any) :
    Simulates root program n t (typeStatements w p i last statements) env
      (Judge.typeStatements declarations last (settleAll n p i statements)) fun ty _ => ty ≠ .any := by
  induction statements generalizing i last env with
  | nil => exact .pure hlast
  | cons e es ih =>
    rw [settleAll, Judge.typeStatements, Typing.typeStatements]
    refine (hs 0 e env rfl (.refl env)).bind fun ty env₁ _ hx hty => ?_
    refine ih hty fun k e' env₂ hk hx' => ?_
    rw [show i + 1 + k = i + (k + 1) by omega]
    exact hs (k + 1) e' env₂ hk (hx.trans hx')

theorem Registered.declarable_or (h : Registered p env functions funs (· = funs) env') (hl : env.Linked)
    (hd : Declarable n env) : Declarable n env' ∨ ∃ (k : Nat) (c : Closure), functions[k]? = some c.function ∧
      c.site = k :: p ∧ c.declaration n (env'.scopes n) = none := by
  by_cases hd' : Declarable n env'
  · exact .inl hd'
  · right
    unfold Declarable at hd'
    push Not at hd'
    obtain ⟨f, fs, hs, id, i, hi, c, hc, hnone⟩ := hd'
    rw [h.frames] at hs
    rcases List.suffix_cons_iff.1 hs with heq | hs
    · obtain ⟨rfl, rfl⟩ := List.cons.inj heq
      obtain ⟨k, g, hk, -, rfl⟩ := (h.names id i).1 hi
      obtain ⟨seen, -, hc'⟩ := h.after k g hk
      cases hc.symm.trans hc'
      rw [← h.frames] at hnone
      exact ⟨k, _, hk, rfl, hnone⟩
    · obtain ⟨c', hc', -⟩ := hl.captured f fs hs id i hi
      cases hc.symm.trans ((h.before i (Array.getElem?_eq_some_iff.1 hc').1).trans hc')
      rw [h.grows.scopesOf_eq hl hs.subset] at hnone
      exact absurd hnone (hd f fs hs id i hi c hc')

/-- Statements that declare all functions have no type if one of them does not pass its declaration. -/
theorem Registered.typeStatements_eq_none {shows : Dictionary Nat → Prop}
    (h : Registered p env functions funs shows env')
    (hd : ∀ f ∈ functions, Expr.declarationOf f.signature ∈ statements) {k : Nat} {c : Closure}
    (hk : functions[k]? = some c.function) (hs : c.site = k :: p) {scopes : List Scope}
    (hnone : c.declaration n scopes = none) {i : Nat} {last : Ty} :
    Judge.typeStatements (Judge.declarations (settleFunctions n p 0 functions)) last (settleAll n p i statements)
      scopes = none := by
  refine Judge.typeStatements_eq_none (funDecl_mem_settleAll (hd _ (List.mem_of_getElem? hk))) rfl fun scopes' ho => ?_
  rw [lookup_declarations hk fun j g hj hg => h.index_unique hj hk hg, Nat.zero_add, ← hs]
  exact declaration_eq_none (c := c) rfl rfl ho.symm hnone

theorem blockRule_error {env env₁ env₂ env₃ : Env} {fault : Fault}
    (hr : registerAll p 0 functions env.enter = .ok () env₁) (hl : env₁.linkSiblings? = some env₂)
    (h : typeStatements w p functions.length .unit statements env₂ = .error fault env₃) :
    blockRule w p functions statements env = .error fault env₃.leave := by
  rw [blockRule_apply, hr]
  dsimp only
  rw [hl]
  dsimp only
  rw [comingBack, h]

/-- A block, at the head of the trail. -/
theorem Simulates.blockRule {loc : Location} (hm : ⟨.node p (.block loc functions statements), env⟩ ∈ t)
    (hn : (p, .block loc functions statements) ∈ nodes root program)
    (hd : ∀ f ∈ functions, Expr.declarationOf f.signature ∈ statements)
    (hs : ∀ funs env₁, Registered p env functions funs (· = funs) env₁ → ∀ k e env₂, statements[k]? = some e →
      Extends env₁ env₂ → Simulates root program n t (w.typeOf ((functions.length + k) :: p) e) env₂
        (Judge.statement (Judge.declarations (settleFunctions n p 0 functions))
          (settle n ((functions.length + k) :: p) e) (Judge.typeOf (settle n ((functions.length + k) :: p) e)))
        fun ty _ => ty ≠ .any) :
    Simulates root program n t (blockRule w p functions statements) env
      (Judge.typeOf (settle n p (.block loc functions statements))) fun ty _ => ty ≠ .any := by
  intro hc
  rw [settle, Judge.typeOf, Judge.inNewScope, blockRule_apply]
  have hrun := registerAll_run hc.linked n functions (Registered.enter p env)
  rw [List.length_nil, List.nil_append] at hrun
  cases h : registerAll p 0 functions env.enter with
  | error fault env₁ =>
    rw [h] at hrun
    refine ⟨hrun.1, fun _ _ => Judge.within_eq_none_iff.2 ?_⟩
    have hnone : Judge.bindFunctions _ ({} :: env.scopes n) = none := hrun.2
    rw [Judge.bind_apply, hnone]
    rfl
  | ok _ env₁ =>
    rw [h] at hrun
    obtain ⟨⟨funs, hreg⟩, hjudge⟩ := hrun
    obtain ⟨env₂, hlink, hsettled, hreg'⟩ := hreg.link
    have hscopes : env₁.scopes n = env₂.scopes n := by
      rw [hreg.scopes hc.linked, hreg'.scopes hc.linked, Dictionary.map_congr fun _ i _ => hsettled n i]
    have hblock : ∀ next : Judge Ty, (Judge.bindFunctions ((settleFunctions n p 0 functions).map (·.signature)) >>=
        fun _ => next) ({} :: env.scopes n) = next (env₂.scopes n) := by
      intro next
      rw [Judge.bind_apply, ← hscopes]
      have hjudge : Judge.bindFunctions _ ({} :: env.scopes n) = some ((), env₁.scopes n) := hjudge
      rw [hjudge]
      rfl
    have hst := typeStatements (show Ty.unit ≠ .any by simp) (hs funs env₂ hreg') (hreg'.consistent hc hn hm)
    dsimp only
    rw [hlink]
    dsimp only [comingBack]
    cases h : Typing.typeStatements w p functions.length .unit statements env₂ with
    | error fault env₃ =>
      rw [h] at hst
      refine ⟨hst.1, fun hp hdecl => Judge.within_eq_none_iff.2 ?_⟩
      rw [hblock]
      -- the fault may come from the body of a function whose declaration the check has not come to yet
      rcases hreg'.declarable_or hc.linked hdecl with hdecl' | ⟨k, c, hk, hsite, hnone⟩
      · exact hst.2 hp hdecl'
      · exact hreg'.typeStatements_eq_none hd hk hsite hnone
    | ok ty env₃ =>
      rw [h] at hst
      obtain ⟨hc', hx, hty, hjudge'⟩ := hst
      have hg := hreg'.grows.trans hx.toGrows
      have hleave : env₃.leave = { env₃ with frames := env.frames } := by
        rw [Env.leave, Frame.tail_eq_of_outline_eq hx.frames, hreg'.frames]
        rfl
      dsimp only
      rw [hleave]
      refine ⟨hc.restore hc' hg rfl, hg.restore, hty, fun ha => ?_⟩
      rw [hg.scopes_restore hc.linked]
      exact Judge.within_eq_some ((hblock _).trans (hjudge' ha))

end FrontEnd.Typing
