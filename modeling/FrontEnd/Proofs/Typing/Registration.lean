import FrontEnd.Proofs.Typing.Consistent
import FrontEnd.Proofs.Typing.Settled

/-!
# Registering the functions of a block

* `Registered` : an environment in which functions of a block have been registered, in a frame opened for them;
* `registerAll_run` : registering succeeds just when the declarative rule does, and means the same;
* `Registered.link` : after that the functions see each other;
* `Registered.linked`, `Registered.consistent` : and the environment is linked and consistent again.
-/

namespace FrontEnd.Typing
open FrontEnd.Expr Env

/-- Environments with the functions `done` of the block at `p` registered, starting from `env`. What the closures have
captured shows some functions of their own frame, as `shows` tells. -/
structure Registered (p : Path) (env : Env) (done : List Function) (funs : Dictionary Nat)
    (shows : Dictionary Nat → Prop) (env' : Env) : Prop where
  frames : env'.frames = { id := env.nextScope, funs } :: env.frames
  names : ∀ id j, funs.find? id = some j ↔
    ∃ k f, done[k]? = some f ∧ f.signature.name = id ∧ j = env.closures.size + k
  size : env'.closures.size = env.closures.size + done.length
  before : ∀ i, i < env.closures.size → env'.closures[i]? = env.closures[i]?
  after : ∀ (k : Nat) (f : Function), done[k]? = some f → ∃ seen, shows seen ∧
    env'.closures[env.closures.size + k]? = some {
      function := f
      site := k :: p
      captured := { id := env.nextScope, funs := seen } :: env.frames
      scope := env.nextScope }
  nextScope : env'.nextScope = env.nextScope + 1
  notes : env'.notes = env.notes

namespace Registered
variable {p : Path} {env env' : Env} {done functions : List Function} {funs : Dictionary Nat} {f : Function}
variable {shows : Dictionary Nat → Prop}

theorem enter (p : Path) (env : Env) : Registered p env [] ∅ (fun _ => True) env.enter := by
  refine ⟨rfl, fun id j => ?_, rfl, fun _ _ => rfl, fun k f hk => ?_, rfl, rfl⟩
  · simp only [List.getElem?_nil, reduceCtorEq, false_and, exists_false, iff_false]
    exact fun h => by cases h
  · simp at hk

/-- Names of registered functions are different. -/
theorem index_unique (h : Registered p env done funs shows env') {j k : Nat} {f g : Function} (hj : done[j]? = some f)
    (hk : done[k]? = some g) (hn : f.signature.name = g.signature.name) : j = k := by
  have hf := (h.names _ _).2 ⟨j, f, hj, rfl, rfl⟩
  have hg := (h.names _ _).2 ⟨k, g, hk, rfl, rfl⟩
  rw [hn, hg] at hf
  have := Option.some.inj hf
  omega

theorem grows (h : Registered p env done funs shows env') : Grows env env' := by
  refine ⟨fun i c hc => ⟨c.progress, ?_⟩, h.nextScope ▸ Nat.le_succ _, fun i c hc _ => ?_⟩
  · rw [h.before i (Array.getElem?_eq_some_iff.1 hc).1, hc]
  · rw [returnOf, returnOf, h.notes]

/-- A closure is one from before, or the new one of one of the functions. -/
theorem old_or_new (h : Registered p env done funs shows env') {i : Nat} {c : Closure}
    (hc : env'.closures[i]? = some c) : env.closures[i]? = some c ∨
      ∃ k f seen, done[k]? = some f ∧ i = env.closures.size + k ∧ shows seen ∧ c = {
        function := f
        site := k :: p
        captured := { id := env.nextScope, funs := seen } :: env.frames
        scope := env.nextScope } := by
  by_cases hi : i < env.closures.size
  · exact .inl (h.before i hi ▸ hc)
  · have hlt := (Array.getElem?_eq_some_iff.1 hc).1
    rw [h.size] at hlt
    have hk : done[i - env.closures.size]? = some done[i - env.closures.size] := List.getElem?_eq_getElem (by omega)
    obtain ⟨seen, hseen, hc'⟩ := h.after _ _ hk
    rw [show env.closures.size + (i - env.closures.size) = i by omega, hc] at hc'
    exact .inr ⟨_, _, seen, hk, by omega, hseen, Option.some.inj hc'⟩

theorem closure_cases (h : Registered p env done funs shows env') {i : Nat} {c : Closure}
    (hc : env'.closures[i]? = some c) : env.closures[i]? = some c ∨
      ∃ k, done[k]? = some c.function ∧ i = env.closures.size + k ∧ c.site = k :: p ∧ c.progress = .unchecked := by
  refine (h.old_or_new hc).imp_right ?_
  rintro ⟨k, f, seen, hk, hi, -, rfl⟩
  exact ⟨k, hk, hi, rfl, rfl⟩

theorem getElem?_concat_eq_some_iff {k : Nat} {f g : Function} :
    (done ++ [f])[k]? = some g ↔ done[k]? = some g ∨ k = done.length ∧ g = f := by
  rw [List.getElem?_append]
  by_cases hk : k < done.length
  · rw [if_pos hk]
    exact ⟨.inl, fun h => h.resolve_right fun h => absurd h.1 (by omega)⟩
  · rw [if_neg hk, List.getElem?_eq_none_iff.2 (show done.length ≤ k by omega)]
    by_cases heq : k = done.length
    · subst heq
      simp [eq_comm]
    · rw [List.getElem?_eq_none_iff.2 (show [f].length ≤ k - done.length by simp; omega)]
      simp [heq]

theorem find?_eq_none (h : Registered p env done funs shows env') {id : Text} (hf : env'.hasFun id = false) :
    funs.find? id = none := by
  rw [hasFun, h.frames] at hf
  exact Option.not_isSome_iff_eq_none.1 (by simpa [Dictionary.contains] using hf)

theorem register (h : Registered p env done funs (fun _ => True) env') (hf : env'.hasFun f.signature.name = false) :
    ∃ env'', env'.register? f.signature.name f (done.length :: p) = some env'' ∧
      env''.closures = env'.closures.push {
        function := f
        site := done.length :: p
        captured := env'.frames
        scope := env.nextScope } ∧
      Registered p env (done ++ [f]) (funs.insert f.signature.name env'.closures.size) (fun _ => True) env'' := by
  have hnone := h.find?_eq_none hf
  unfold register?
  rw [h.frames]
  refine ⟨_, rfl, rfl, rfl, fun id j => ?_, ?_, fun i hi => ?_, fun k g hk => ?_, h.nextScope, h.notes⟩
  · simp only [getElem?_concat_eq_some_iff]
    rw [Dictionary.find?_insert, h.size]
    by_cases hid : id = f.signature.name
    · subst hid
      rw [if_pos rfl]
      constructor
      · intro heq
        cases heq
        exact ⟨done.length, f, .inr ⟨rfl, rfl⟩, rfl, rfl⟩
      · rintro ⟨k, g, hk | ⟨rfl, rfl⟩, hg, rfl⟩
        · rw [(h.names _ _).2 ⟨k, g, hk, hg, rfl⟩] at hnone
          cases hnone
        · rfl
    · rw [if_neg hid, h.names]
      constructor
      · rintro ⟨k, g, hk, hg, rfl⟩
        exact ⟨k, g, .inl hk, hg, rfl⟩
      · rintro ⟨k, g, hk | ⟨rfl, rfl⟩, hg, rfl⟩
        · exact ⟨k, g, hk, hg, rfl⟩
        · exact absurd hg.symm hid
  · rw [Array.size_push, h.size, List.length_append]
    rfl
  · rw [Array.getElem?_push_lt (by rw [h.size]; omega), ← h.before i hi, Array.getElem?_eq_getElem]
  · rcases getElem?_concat_eq_some_iff.1 hk with hk | ⟨rfl, rfl⟩
    · obtain ⟨seen, -, hc⟩ := h.after k g hk
      refine ⟨seen, trivial, ?_⟩
      have hlt := (Array.getElem?_eq_some_iff.1 hc).1
      rw [Array.getElem?_push_lt hlt, ← hc, Array.getElem?_eq_getElem]
    · refine ⟨funs, trivial, ?_⟩
      rw [← h.size]
      exact Array.getElem?_push_size

end Registered

/-! ## Siblings -/

theorem Registered.link {p : Path} {env env' : Env} {done : List Function} {funs : Dictionary Nat}
    (h : Registered p env done funs (fun _ => True) env') :
    ∃ env'', env'.linkSiblings? = some env'' ∧ (∀ n i, (env''.closure i).settled n = (env'.closure i).settled n) ∧
      Registered p env done funs (· = funs) env'' := by
  have hmem : ∀ j, j ∈ funs.toList.map (·.2) ↔ ∃ k f, done[k]? = some f ∧ j = env.closures.size + k := by
    intro j
    rw [List.mem_map]
    constructor
    · rintro ⟨⟨id, j⟩, hm, rfl⟩
      obtain ⟨k, f, hk, -, hj⟩ := (h.names id j).1 (Dictionary.mem_toList.1 hm)
      exact ⟨k, f, hk, hj⟩
    · rintro ⟨k, f, hk, rfl⟩
      exact ⟨(f.signature.name, _), Dictionary.mem_toList.2 ((h.names _ _).2 ⟨k, f, hk, rfl, rfl⟩), rfl⟩
  obtain ⟨store, hlink, hsize, hstore⟩ := linkSiblings?_eq h.frames
  refine ⟨_, hlink, fun n i => ?_, h.frames, h.names, hsize.trans h.size, fun i hi => ?_, fun k f hk => ?_,
    h.nextScope, h.notes⟩
  · rw [Env.closure, Env.closure, Array.getD_eq_getD_getElem?, Array.getD_eq_getD_getElem?, hstore]
    split
    · cases env'.closures[i]? <;> rfl
    · rfl
  · rw [hstore, if_neg, h.before i hi]
    rw [hmem]
    rintro ⟨k, f, -, rfl⟩
    omega
  · obtain ⟨seen, -, hc⟩ := h.after k f hk
    refine ⟨funs, rfl, ?_⟩
    rw [hstore, if_pos ((hmem _).2 ⟨k, f, hk, rfl⟩), hc]
    rfl

/-! ## Runs -/

theorem Registered.scopes {p : Path} {env env' : Env} {done : List Function} {funs : Dictionary Nat}
    {shows : Dictionary Nat → Prop} (h : Registered p env done funs shows env') (hl : env.Linked) (n : Notes) :
    env'.scopes n = ⟨∅, funs.map fun i => (env'.closure i).settled n⟩ :: env.scopes n := by
  rw [Env.scopes, h.frames]
  show _ :: env'.scopesOf n env.frames = _
  rw [h.grows.scopesOf_eq hl (List.Subset.refl _)]
  rfl

theorem Registered.register_scopes {p : Path} {env env' env'' : Env} {done : List Function} {funs : Dictionary Nat}
    {f : Function} (hl : env.Linked) (h : Registered p env done funs (fun _ => True) env')
    (h' : Registered p env (done ++ [f]) (funs.insert f.signature.name env'.closures.size) (fun _ => True) env'')
    {c : Closure} (hc : env''.closures = env'.closures.push c) (n : Notes) :
    env''.scopes n = ⟨∅, (funs.map fun i => (env'.closure i).settled n).insert f.signature.name (c.settled n)⟩ ::
      env.scopes n := by
  have hnew : env''.closure env'.closures.size = c := by
    rw [Env.closure, hc, Array.getD_eq_getD_getElem?, Array.getElem?_push_size]
    rfl
  have hold : ∀ id i, funs.find? id = some i → (env''.closure i).settled n = (env'.closure i).settled n := by
    intro id i hi
    obtain ⟨k, g, hk, -, rfl⟩ := (h.names id i).1 hi
    obtain ⟨seen, -, hc'⟩ := h.after k g hk
    have hlt := (Array.getElem?_eq_some_iff.1 hc').1
    rw [Env.closure, Env.closure, hc, Array.getD_eq_getD_getElem?, Array.getD_eq_getD_getElem?,
      Array.getElem?_push_lt hlt, Array.getElem?_eq_getElem hlt]
  rw [h'.scopes hl, Dictionary.map_insert, hnew, Dictionary.map_congr hold]

theorem registerAll_cons (p : Path) (i : Nat) (f : Function) (fs : List Function) (env : Env) :
    registerAll p i (f :: fs) env =
      if env.hasFun f.signature.name then .error (.typing (.functionExists f.signature.name) f.signature.loc) env
      else match env.register? f.signature.name f (i :: p) with
        | none => .error (.internal .noOpenScope) env
        | some env' => registerAll p (i + 1) fs env' := by
  rw [registerAll, get_bind_apply]
  cases env.hasFun f.signature.name with
  | true => rfl
  | false =>
    show (Check.register f.signature.name f (i :: p) >>= fun _ => registerAll p (i + 1) fs) env = _
    rw [bind_apply, Check.register, changeOr_apply]
    cases env.register? f.signature.name f (i :: p) <;> rfl

/-- What is registered when registering has come to an end: all functions, or those in front of the one that is
refused. -/
theorem Registered.registerAll {p : Path} {env : Env} (functions : List Function) {done : List Function}
    {funs : Dictionary Nat} {env' : Env} (h : Registered p env done funs (fun _ => True) env') :
    match Typing.registerAll p done.length functions env' with
    | .ok _ env'' => ∃ funs', Registered p env (done ++ functions) funs' (fun _ => True) env''
    | .error _ env'' =>
      ∃ some funs', some <+: functions ∧ Registered p env (done ++ some) funs' (fun _ => True) env'' := by
  induction functions generalizing done funs env' with
  | nil =>
    rw [Typing.registerAll]
    exact ⟨funs, by rwa [List.append_nil]⟩
  | cons f fs ih =>
    rw [registerAll_cons]
    cases hf : env'.hasFun f.signature.name with
    | true => exact ⟨[], funs, List.nil_prefix, by rwa [List.append_nil]⟩
    | false =>
      obtain ⟨env'', hreg, -, h''⟩ := h.register hf
      have hrun := ih h''
      rw [List.length_append, List.length_singleton, List.append_assoc] at hrun
      simp only [hreg, Bool.false_eq_true, if_false]
      cases hrest : Typing.registerAll p (done.length + 1) fs env'' with
      | ok _ env₂ =>
        rw [hrest] at hrun
        exact hrun
      | error fault env₂ =>
        rw [hrest] at hrun
        obtain ⟨some, funs', hsome, hr⟩ := hrun
        exact ⟨f :: some, funs', List.cons_prefix_cons.2 ⟨rfl, hsome⟩, by rwa [List.append_assoc] at hr⟩

theorem blockRule_apply (w : Walker) (p : Path) (functions : List Function) (statements : List Expr) (env : Env) :
    blockRule w p functions statements env =
      match registerAll p 0 functions env.enter with
      | .error fault env₁ => .error fault env₁.leave
      | .ok _ env₁ =>
        match env₁.linkSiblings? with
        | none => .error (.internal .noOpenScope) env₁.leave
        | some env₂ => comingBack (typeStatements w p functions.length .unit statements) env₂ (·.leave) := by
  unfold blockRule Check.inNewFrame
  rw [bind_apply]
  cases registerAll p 0 functions env.enter with
  | error fault env₁ => rfl
  | ok _ env₁ =>
    dsimp only
    rw [bind_apply, Check.linkSiblings, changeOr_apply]
    cases env₁.linkSiblings? with
    | none => rfl
    | some env₂ => rfl

/-- When the functions of a block have been registered, its statements are typed in the environment in which the
functions see each other. -/
theorem blockRule_registered {p : Path} {env env₁ : Env} {functions : List Function}
    (h : registerAll p 0 functions env.enter = .ok () env₁) :
    ∃ env₂ funs, Registered p env functions funs (· = funs) env₂ ∧ ∀ w statements,
      blockRule w p functions statements env =
        comingBack (typeStatements w p functions.length .unit statements) env₂ (·.leave) := by
  have hall := (Registered.enter p env).registerAll functions
  rw [List.length_nil, h] at hall
  obtain ⟨funs, hregistered⟩ := hall
  obtain ⟨env₂, hlink, -, hlinked⟩ := hregistered.link
  refine ⟨env₂, funs, hlinked, fun w statements => ?_⟩
  rw [blockRule_apply, h]
  dsimp only
  rw [hlink]

theorem registerAll_run {p : Path} {env : Env} (hl : env.Linked) (n : Notes) (functions : List Function)
    {done : List Function} {funs : Dictionary Nat} {env' : Env} (h : Registered p env done funs (fun _ => True) env') :
    match registerAll p done.length functions env' with
    | .ok _ env'' =>
      (∃ funs', Registered p env (done ++ functions) funs' (fun _ => True) env'') ∧
        Judge.bindFunctions ((settleFunctions n p done.length functions).map (·.signature)) (env'.scopes n) =
          some ((), env''.scopes n)
    | .error fault _ =>
      fault.IsTyping ∧
        Judge.bindFunctions ((settleFunctions n p done.length functions).map (·.signature)) (env'.scopes n) = none := by
  induction functions generalizing done funs env' with
  | nil =>
    rw [registerAll]
    exact ⟨⟨funs, by rwa [List.append_nil]⟩, rfl⟩
  | cons f fs ih =>
    obtain ⟨s, body⟩ := f
    rw [registerAll_cons, settleFunctions, List.map_cons, Judge.bindFunctions, Judge.requireNoFun_bind_apply]
    rw [show (s.settle n (done.length :: p)).name = s.name from rfl, any_contains_funs_scopes]
    cases hf : env'.hasFun s.name with
    | true => exact ⟨⟨_, _, rfl⟩, rfl⟩
    | false =>
      obtain ⟨env'', hreg, hclosures, h''⟩ := h.register (f := ⟨s, body⟩) hf
      have hrun := ih h''
      rw [h.register_scopes hl h'' hclosures, List.length_append, List.append_assoc] at hrun
      rw [hreg, h.scopes hl]
      exact hrun

theorem Registered.linked {p : Path} {env env' : Env} {functions : List Function} {funs : Dictionary Nat}
    (h : Registered p env functions funs (· = funs) env') (hl : env.Linked) : env'.Linked := by
  refine ⟨?_, ?_, ?_⟩
  · rw [h.frames]
    exact List.pairwise_cons.2 ⟨hl.bounded, hl.decreasing⟩
  · rw [h.frames, h.nextScope]
    refine List.forall_mem_cons.2 ⟨Nat.lt_succ_self _, fun id hid => Nat.lt_succ_of_lt (hl.bounded id hid)⟩
  · rw [h.frames]
    intro f fs hs id i hi
    rcases List.suffix_cons_iff.1 hs with heq | hs
    · obtain ⟨rfl, rfl⟩ := List.cons.inj heq
      obtain ⟨k, g, hk, -, rfl⟩ := (h.names id i).1 hi
      obtain ⟨seen, rfl, hc⟩ := h.after k g hk
      exact ⟨_, hc, rfl, rfl⟩
    · obtain ⟨c, hc, hscope, hcaptured⟩ := hl.captured f fs hs id i hi
      exact ⟨c, (h.before i (Array.getElem?_eq_some_iff.1 hc).1).trans hc, hscope, hcaptured⟩

theorem Registered.consistent {root p : Path} {program : Expr} {t : Trail} {env env' : Env} {loc : Location}
    {functions : List Function} {statements : List Expr} {funs : Dictionary Nat}
    (h : Registered p env functions funs (· = funs) env') (hc : Consistent root program t env)
    (hn : (p, .block loc functions statements) ∈ nodes root program)
    (hm : ⟨.node p (.block loc functions statements), env⟩ ∈ t) : Consistent root program t env' := by
  have hregisters : ∀ id j, funs.find? id = some j → ∃ site g, Registers t env' j site g := by
    intro id j hj
    obtain ⟨k, f, hk, -, rfl⟩ := (h.names id j).1 hj
    obtain ⟨seen, -, hc'⟩ := h.after k f hk
    exact ⟨_, _, .intro hm hk hc' rfl⟩
  refine ⟨h.linked hc.linked, ?_, fun i c hi => ?_, ?_, fun i c hi => ?_, ?_, fun occasion i site env₀ hm => ?_⟩
  · rw [h.frames]
    refine List.forall_mem_cons.2 ⟨?_, hc.typed⟩
    intro id ty hty
    cases hty
  · rcases h.closure_cases hi with hi | ⟨k, hk, -, hsite, -⟩
    · exact hc.placed i c hi
    · exact ⟨k, p, loc, functions, statements, hsite, hn, hk⟩
  · rw [h.notes]
    exact hc.settled
  · rcases h.closure_cases hi with hi | ⟨k, -, rfl, -, hprogress⟩
    · exact hc.checking i c hi
    · -- the new closures are unchecked, and behind all those whose bodies are being walked
      rw [hprogress]
      refine iff_of_false (by simp) fun hpos => ?_
      have hlt := hc.lt_size_of_mem_positions hpos
      omega
  · rw [h.frames]
    refine List.forall_mem_cons.2 ⟨hregisters, fun f hf id i hi => ?_⟩
    obtain ⟨site, g, hr⟩ := hc.visible f hf id i hi
    exact ⟨site, g, hr.grow h.grows⟩
  · obtain ⟨g, hr⟩ := hc.walked occasion i site env₀ hm
    exact ⟨g, hr.grow h.grows⟩

end FrontEnd.Typing
