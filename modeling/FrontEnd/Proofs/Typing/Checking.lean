import FrontEnd.Proofs.Typing.Blocks

/-!
# Checks of programs

* `Regular` : what holds at every point of a check;
* `Sound` : checks under a monitor that lets regular points pass simulate declarative typing, within a limit that leaves
  enough steps for the rest of the longest trail;
* `sound` : they do, by induction on the limit.
-/

namespace FrontEnd.Typing
open FrontEnd.Expr Env Check

structure Regular (root : Path) (program : Expr) (point : Point) : Prop where
  consistent : Consistent root program point.trail point.env
  nested : ∃ env, Nested root program (⟨point.moment.step, env⟩ :: point.trail)
  called : ∀ i site, point.moment = .entering (.body .call i site) → (point.env.closure i).progress = .unchecked ∧
    ∃ p loc callee args env rest, point.trail = ⟨.node p (.call loc callee args), env⟩ :: rest ∧
      point.env.lookupFun? callee = some i

section
variable (root : Path) (program : Expr) (n : Notes) (monitor : Monitor)

/-- Whether a node can be typed where no frame is open. -/
def Ready (e : Expr) (env : Env) : Prop :=
  (∃ loc functions statements, e = .block loc functions statements) ∨ env.frames ≠ []

/-- Nodes are typed as declared. -/
def TypesNodes (limit : Nat) : Prop :=
  ∀ {t p e env}, Nested root program (⟨.node p e, env⟩ :: t) → 2 * program.nodeCount ≤ limit + t.length →
    e.WellFormed → Ready e env →
    Simulates root program n t (watchedTypeOf monitor limit t p e) env (Judge.typeOf (settle n p e))
      fun ty _ => ty ≠ .any

/-- The declaration of a function of the block whose frame is the innermost one has it checked. -/
def TypesDeclarations (limit : Nat) : Prop :=
  ∀ {t q loc functions statements env₀ j loc' id k i c f fs env},
    Nested root program
      (⟨.node (j :: q) (.funDecl loc' id), env⟩ :: ⟨.node q (.block loc functions statements), env₀⟩ :: t) →
    2 * program.nodeCount ≤ limit + (t.length + 1) → c.site = k :: q → env.closures[i]? = some c →
    env.frames = f :: fs → f.funs.find? id = some i →
    Simulates root program n (⟨.node q (.block loc functions statements), env₀⟩ :: t)
      (watchedTypeOf monitor limit (⟨.node q (.block loc functions statements), env₀⟩ :: t) (j :: q) (.funDecl loc' id))
      env (do let _ ← c.declaration n; return .unit) fun ty _ => ty ≠ .any

/-- The check of a visible function's body, which is not being walked, finds it declarable or fails. -/
def ChecksBodies (limit : Nat) : Prop :=
  ∀ {t occasion i c f fs id env judge}, Nested root program t → 2 * program.nodeCount ≤ limit + t.length →
    c.site ∉ t.sites → env.closures[i]? = some c → f :: fs <:+ env.frames → f.funs.find? id = some i →
    (occasion = .call → c.progress = .unchecked ∧ ∃ p loc args env' rest,
      t = ⟨.node p (.call loc id args), env'⟩ :: rest ∧ env.lookupFun? id = some i) →
    (c.declaration n (env.scopesOf n (f :: fs)) ≠ none → judge (env.scopes n) = some ((), env.scopes n)) →
    Simulates root program n t (watchedClosure monitor limit t occasion i) env judge fun _ _ => True

structure Sound (limit : Nat) : Prop where
  node : TypesNodes root program n monitor limit
  declaration : TypesDeclarations root program n monitor limit
  body : ChecksBodies root program n monitor limit

end

variable {root : Path} {program : Expr} {n : Notes} {monitor : Monitor} {t : Trail} {p : Path} {e : Expr} {env : Env}

namespace Simulates
variable {α : Type} {judge : Judge α} {post : α → Env → Prop}

theorem watched {step : Step} {inner : Trail → Check α}
    (hmon : ∀ point, Regular root program point → monitor point = none)
    (hn : Nested root program (⟨step, env⟩ :: t))
    (hcall : ∀ i site, step = .body .call i site → (env.closure i).progress = .unchecked ∧
      ∃ p loc callee args env' rest, t = ⟨.node p (.call loc callee args), env'⟩ :: rest ∧
        env.lookupFun? callee = some i)
    (h : Simulates root program n t (inner (⟨step, env⟩ :: t)) env judge post) :
    Simulates root program n t (watched monitor t step inner) env judge post := by
  intro hc
  have h := h hc
  have hentering : monitor ⟨t, .entering step, env⟩ = none := by
    refine hmon _ ⟨hc, ⟨env, hn⟩, fun i site heq => ?_⟩
    cases heq
    exact hcall i site rfl
  rw [watched_apply inner hentering]
  cases hrun : inner (⟨step, env⟩ :: t) env with
  | error fault env' => rwa [hrun] at h
  | ok a env' =>
    rw [hrun] at h
    have hleaving : monitor ⟨t, .leaving step, env'⟩ = none :=
      hmon _ ⟨h.1, ⟨env, hn⟩, fun i site heq => by cases heq⟩
    dsimp only
    rw [hleaving]
    exact h

/-- A step that is made inside a node. -/
theorem inside (p : Path) (e : Expr) (env₀ : Env) {x : Check α}
    (h : Simulates root program n (⟨.node p e, env₀⟩ :: t) x env judge post) :
    Simulates root program n t x env judge post := by
  intro hc
  have h := h hc.push
  cases hx : x env with
  | error fault env' => rwa [hx] at h
  | ok a env' =>
    rw [hx] at h
    obtain ⟨hc', hext, hrest⟩ := h
    exact ⟨hc.extend hext hc'.typed hc'.placed hc'.settled hc'.checking, hext, hrest⟩

end Simulates

/-! ## Nodes -/

section
variable (hmon : ∀ point, Regular root program point → monitor point = none) {limit : Nat}
variable (ih : Sound root program n monitor limit) (hn : Nested root program (⟨.node p e, env⟩ :: t))
variable (hl : 2 * program.nodeCount ≤ limit + (t.length + 1))
include ih hn hl

theorem Sound.types {k : Nat} {part : Expr} (hk : e.children[k]? = some part) (hb : e.bodyCount ≤ k)
    (hwf : part.WellFormed) :
    Types root program n (⟨.node p e, env⟩ :: t) (watchedWalker monitor limit (⟨.node p e, env⟩ :: t)) (k :: p) part :=
  fun _ hne => ih.node (.part hn hk hb) hl hwf (.inr hne)

theorem Sound.statement {loc : Location} {functions : List Function} {statements : List Expr}
    (he : e = .block loc functions statements) (hwf : e.WellFormed) {funs : Dictionary Nat} {env₁ env₂ : Env}
    (hreg : Registered p env functions funs (· = funs) env₁) (hx : Extends env₁ env₂) {k : Nat} {s : Expr}
    (hk : statements[k]? = some s) :
    Simulates root program n (⟨.node p e, env⟩ :: t)
      ((watchedWalker monitor limit (⟨.node p e, env⟩ :: t)).typeOf ((functions.length + k) :: p) s) env₂
      (Judge.statement (Judge.declarations (settleFunctions n p 0 functions))
        (settle n ((functions.length + k) :: p) s) (Judge.typeOf (settle n ((functions.length + k) :: p) s)))
      fun ty _ => ty ≠ .any := by
  subst he
  have hchild : (Expr.block loc functions statements).children[functions.length + k]? = some s :=
    children_of_statements hk
  have hframes : env₂.frames ≠ [] := hx.frames_ne_nil (by rw [hreg.frames]; exact List.cons_ne_nil _ _)
  cases hwf with
  | block hp hf hs hd =>
    cases hdecl : s.isDeclaration with
    | false =>
      have hnone : Judge.declared? (settle n ((functions.length + k) :: p) s) = none := by
        rw [declared?_settle]
        cases s <;> first | rfl | simp [isDeclaration] at hdecl
      rw [Judge.statement, hnone]
      exact ih.types hn hl hchild (Nat.le_add_right _ _) (hs s (List.mem_of_getElem? hk) hdecl) env₂ hframes
    | true =>
      have hmem : s ∈ statements.filter isDeclaration := List.mem_filter.2 ⟨List.mem_of_getElem? hk, hdecl⟩
      rw [hd] at hmem
      obtain ⟨f, hf, rfl⟩ := List.mem_map.1 hmem
      obtain ⟨j, hj⟩ := List.mem_iff_getElem?.1 hf
      obtain ⟨seen, -, hc⟩ := hreg.after j f hj
      obtain ⟨progress, hc'⟩ := hx.closures _ _ hc
      obtain ⟨g, hg, -, hfuns⟩ := Frame.outline_eq_cons (hreg.frames ▸ hx.frames)
      have hi : g.funs.find? f.signature.name = some (env.closures.size + j) :=
        hfuns ▸ (hreg.names _ _).2 ⟨j, f, hj, rfl, rfl⟩
      have hlookup := lookup_declarations (n := n) (p := p) (i := 0) hj fun l g hl hg => hreg.index_unique hl hj hg
      have hsome : Judge.declared? (settle n ((functions.length + k) :: p) (Expr.declarationOf f.signature)) =
        some f.signature.name := declared?_settle _ _ _
      rw [Judge.statement, hsome]
      dsimp only
      rw [hlookup, Nat.zero_add]
      exact ih.declaration (c := { function := f, site := j :: p, progress, captured := _, scope := _ })
        (.part hn hchild (Nat.le_add_right _ _)) hl rfl hc' hg hi

theorem Sound.rule (hwf : e.WellFormed) (hready : Ready e env) :
    Simulates root program n (⟨.node p e, env⟩ :: t)
      (rule (watchedWalker monitor limit (⟨.node p e, env⟩ :: t)) p e) env (Judge.typeOf (settle n p e))
      fun ty _ => ty ≠ .any := by
  have hne : (∀ loc functions statements, e ≠ .block loc functions statements) → env.frames ≠ [] := by
    intro h
    refine hready.resolve_left ?_
    rintro ⟨loc, functions, statements, rfl⟩
    exact h _ _ _ rfl
  have parts := @Sound.types _ _ _ _ _ _ _ _ _ ih hn hl
  cases hwf with
  | @literal loc value h =>
    cases value with
    | unit => exact absurd rfl h
    | _ =>
      rw [settle, Judge.typeOf, Typing.rule]
      · exact .pure (by simp [Literal.ty])
      · simp
      · simp
  | name => exact .name
  | unary hop h =>
    have hoperand := parts (k := 0) rfl (Nat.zero_le _) h
    exact .unaryRule hop hoperand (hne (by simp))
  | binary hop hl hr =>
    have hlhs := parts (k := 0) rfl (Nat.zero_le _) hl
    have hrhs := parts (k := 1) rfl (Nat.zero_le _) hr
    exact .binaryRule hop hlhs hrhs (hne (by simp))
  | letIn h =>
    have hvalue := parts (k := 0) rfl (Nat.zero_le _) h
    exact .letRule hvalue (hne (by simp))
  | ifThen ht hb =>
    have htest := parts (k := 0) rfl (Nat.zero_le _) ht
    have hbody := parts (k := 1) rfl (Nat.zero_le _) hb
    exact .ifThen htest hbody (hne (by simp))
  | ifElse ht hb ho =>
    have htest := parts (k := 0) rfl (Nat.zero_le _) ht
    have hbody := parts (k := 1) rfl (Nat.zero_le _) hb
    have horelse := parts (k := 2) rfl (Nat.zero_le _) ho
    exact .ifElse htest hbody horelse (hne (by simp))
  | whileLoop ht hb =>
    have htest := parts (k := 0) rfl (Nat.zero_le _) ht
    have hbody := parts (k := 1) rfl (Nat.zero_le _) hb
    exact .whileLoop htest hbody (hne (by simp))
  | forLoop hs ht hi hb =>
    -- the start of the variable is typed as a binding
    have hstart := parts (k := 0) rfl (Nat.zero_le _) (.letIn hs)
    have htest := parts (k := 1) rfl (Nat.zero_le _) ht
    have hstep := parts (k := 2) rfl (Nat.zero_le _) hi
    have hbody := parts (k := 3) rfl (Nat.zero_le _) hb
    exact .forRule hstart htest hstep hbody
  | @block loc functions statements hp hf hs hd =>
    have hwf : (block loc functions statements).WellFormed := .block hp hf hs hd
    refine .blockRule List.mem_cons_self (hn.mem_nodes List.mem_cons_self) (fun f => hwf.declaration_mem) ?_
    intro funs env₁ hreg k s env₂ hk hx
    exact ih.statement hn hl rfl hwf hreg hx hk
  | @call loc callee args h =>
    refine .callRule (fun k arg hk => parts hk (Nat.zero_le _) (h arg (List.mem_of_getElem? hk))) (hne (by simp)) ?_
    intro env' i hx hi hprogress
    refine .assuming fun hcon => ?_
    obtain ⟨f, fs, c, hs, hf, hc, -⟩ := hcon.linked.closure_of_lookupFun? hi
    rw [closure_eq hc] at hprogress
    have hfresh := hcon.not_mem_sites hn (hcon.registers hs hf hc) hc hprogress
    exact ih.body hn hl hfresh hc hs hf (fun _ => ⟨hprogress, p, loc, args, env, t, rfl, hi⟩) fun _ => rfl

end

/-! ## Limits -/

/-- No trail is long enough to use up the limit. -/
theorem sound_zero : Sound root program n monitor 0 := by
  refine ⟨?_, ?_, ?_⟩
  · intro t p e env hn hl
    have hlength := hn.length_le
    simp only [List.length_cons] at hlength
    omega
  · intro t q loc functions statements env₀ j loc' id k i c f fs env hn hl
    have hlength := hn.length_le
    simp only [List.length_cons] at hlength
    omega
  · intro t occasion i c f fs id env judge hn hl hs hc hsuffix hi hcall hj
    refine .assuming fun hcon => ?_
    obtain ⟨k, q, loc, functions, statements, env₀, hsite, hq, hk⟩ := (hcon.registers hsuffix hi hc).block
    have hbody : Nested root program (⟨.body occasion i (k :: q), env⟩ :: t) := .body hn hq hk (hsite ▸ hs)
    have hlength := hbody.length_le
    simp only [List.length_cons] at hlength
    omega

section
variable (hmon : ∀ point, Regular root program point → monitor point = none) {limit : Nat}
variable (ih : Sound root program n monitor limit)
include hmon ih

theorem Sound.node_succ : TypesNodes root program n monitor (limit + 1) := by
  intro t p e env hn hl hwf hr
  rw [watchedTypeOf]
  refine .watched hmon hn (fun i site heq => by cases heq) (.inside p e env ?_)
  rw [← bind_pure (Judge.typeOf _)]
  refine (ih.rule hn (by omega) hwf hr).bind fun ty env' _ _ hty => ?_
  exact .step (.note _ _) fun _ _ _ _ => .pure hty

theorem Sound.declaration_succ : TypesDeclarations root program n monitor (limit + 1) := by
  intro t q loc functions statements env₀ j loc' id k i c f fs env hn hl hsite hc hframes hi
  have hs : f :: fs <:+ env.frames := hframes ▸ List.suffix_refl _
  have hfresh : c.site ∉ Trail.sites (⟨.node (j :: q) (.funDecl loc' id), env⟩ ::
      ⟨.node q (.block loc functions statements), env₀⟩ :: t) := by
    rw [hsite, Trail.sites_node, Trail.sites_node]
    exact hn.tail.not_mem_sites
  have hlookup : env.lookupFun? id = some i := by
    rw [lookupFun?, hframes, List.findSome?_cons, hi]
  have hlength : 2 * program.nodeCount ≤ limit + List.length (⟨.node (j :: q) (.funDecl loc' id), env⟩ ::
      ⟨.node q (.block loc functions statements), env₀⟩ :: t : Trail) := by
    simp only [List.length_cons]
    omega
  rw [watchedTypeOf]
  refine .watched hmon hn (fun i site heq => by cases heq) (.inside (j :: q) (.funDecl loc' id) env ?_)
  rw [← bind_pure (do let _ ← c.declaration n; return Ty.unit : Judge Ty)]
  refine Simulates.bind (.declarationRule hlookup ?_) fun ty env' _ _ hty => ?_
  · refine ih.body hn hlength hfresh hc hs hi (fun h => by cases h) fun hsome => ?_
    rw [Env.scopes, hframes, Judge.bind_apply]
    obtain ⟨⟨ty, scopes⟩, hty⟩ := Option.ne_none_iff_exists'.1 hsome
    rw [hty, Judge.scopes_eq_of_within hty]
    rfl
  · exact .step (.note _ _) fun _ _ _ _ => .pure hty

theorem Sound.body_succ (hprogram : program.WellFormed) : ChecksBodies root program n monitor (limit + 1) := by
  intro t occasion i c f fs id env judge hn hl hs hc hsuffix hi hcall hj
  refine .assuming fun hcon => ?_
  obtain ⟨k, q, loc, functions, statements, env₀, hsite, hq, hk⟩ := (hcon.registers hsuffix hi hc).block
  have hbody : Nested root program (⟨.body occasion i (k :: q), env⟩ :: t) := .body hn hq hk (hsite ▸ hs)
  obtain ⟨hparams, hwf⟩ := (hcon.placed i c hc).wellFormed hprogram
  rw [watchedClosure]
  refine .get ?_
  rw [closure_eq hc]
  refine .watched hmon (hsite ▸ hbody) ?_ (.bodyRule hc hsuffix hi (hcon.not_mem_positions hc hs) hparams ?_ hj)
  · intro i' site heq
    cases heq
    obtain ⟨hprogress, p, loc, args, env', rest, ht, hlookup⟩ := hcall rfl
    exact ⟨closure_eq hc ▸ hprogress, p, loc, id, args, env', rest, ht, hlookup⟩
  · intro env' hne
    refine ih.node ?_ (by simp only [List.length_cons]; omega) hwf (.inr hne)
    rw [hsite]
    exact .bodyNode hbody hq hk

end

theorem sound (hprogram : program.WellFormed) (hmon : ∀ point, Regular root program point → monitor point = none)
    (limit : Nat) : Sound root program n monitor limit := by
  induction limit with
  | zero => exact sound_zero
  | succ limit ih => exact ⟨ih.node_succ hmon, ih.declaration_succ hmon, ih.body_succ hmon hprogram⟩

end FrontEnd.Typing
