import FrontEnd.Proofs.Scope
import FrontEnd.Proofs.Syntax.Nodes
import FrontEnd.Proofs.Typing.Bindings

/-!
# The types of variables throughout a check

Every frame has a number of its own, so all that a check ever binds can be written into one ledger, which only grows.

* `Expr.Apart` : no binding of a tree has a value that binds its name in the same frame;
* `Ledger`, `Frame.Follows`, `Recorded` : types of variables by frame and name, and environments that agree with them;
* `Records` : a step has a ledger for all its points, in which nothing is new for frames that it does not bind in;
  `Records.bind`, `Records.inNewFrame`, `Records.inFrames`, `Records.watched` : how steps with ledgers are put together.
-/

namespace FrontEnd

/-- No binding in the tree `e` at `p` has a value that binds the same name in the same frame. -/
def Expr.Apart (p : Path) (e : Expr) : Prop :=
  ∀ q loc id value, (q, .letIn loc id value) ∈ Expr.nodes p e → id ∉ value.bindings

theorem Expr.Apart.part {p : Path} {e part : Expr} {k : Nat} (h : e.Apart p) (hk : e.children[k]? = some part) :
    part.Apart (k :: p) :=
  fun q loc id value hmem => h q loc id value (mem_nodes.2 (.inr ⟨k, part, hk, hmem⟩))

theorem Expr.Apart.binding {p : Path} {loc : Location} {id : Text} {value : Expr}
    (h : (Expr.letIn loc id value).Apart p) : id ∉ value.bindings :=
  h p loc id value (self_mem_nodes _ _)

/-! ## Ledgers -/

/-- The types of variables, by the number of their frame and by name. -/
abbrev Ledger := Nat → Text → Option Ty

namespace Ledger
variable {ρ ρ' ρ'' : Ledger}

/-- All that is in `ρ` is in `ρ'`. -/
def Within (ρ ρ' : Ledger) : Prop := ∀ n id t, ρ n id = some t → ρ' n id = some t

theorem Within.refl (ρ : Ledger) : ρ.Within ρ := fun _ _ _ h => h

theorem Within.trans (h : ρ.Within ρ') (h' : ρ'.Within ρ'') : ρ.Within ρ'' :=
  fun n id t ht => h' n id t (h n id t ht)

/-- The ledger with one more entry. -/
def write (ρ : Ledger) (n : Nat) (id : Text) (t : Ty) : Ledger :=
  fun n' id' => if n' = n ∧ id' = id then some t else ρ n' id'

theorem within_write {n : Nat} {id : Text} (h : ρ n id = none) (t : Ty) : ρ.Within (ρ.write n id t) := by
  intro n' id' t' ht'
  unfold write
  split
  · next heq =>
    obtain ⟨rfl, rfl⟩ := heq
    cases h.symm.trans ht'
  · exact ht'

end Ledger

namespace Frame

/-- The variables of `f` have the types that the ledger has for its number. -/
def Follows (f : Frame) (ρ : Ledger) : Prop := ∀ id t, f.vars.find? id = some t → ρ f.id id = some t

/-- `f` follows the ledger and has a number below `next`. -/
structure In (f : Frame) (ρ : Ledger) (next : Nat) : Prop where
  follows : f.Follows ρ
  below : f.id < next

theorem In.mono {f : Frame} {ρ ρ' : Ledger} {next next' : Nat} (h : f.In ρ next) (hρ : ρ.Within ρ')
    (hnext : next ≤ next') : f.In ρ' next' :=
  ⟨fun id t ht => hρ _ _ _ (h.follows id t ht), Nat.lt_of_lt_of_le h.below hnext⟩

theorem In.outline {fs : List Frame} {ρ : Ledger} {next : Nat} (h : ∀ f ∈ fs, f.In ρ next) :
    ∀ f ∈ outline fs, f.In ρ next := by
  cases fs with
  | nil => exact h
  | cons f fs =>
    obtain ⟨hf, hfs⟩ := List.forall_mem_cons.1 h
    exact List.forall_mem_cons.2 ⟨⟨fun _ _ ht => (nomatch ht), hf.below⟩, hfs⟩

end Frame

/-- The frames that the closure has captured follow the ledger, and its function has no such binding. -/
structure Closure.In (c : Closure) (ρ : Ledger) (next : Nat) : Prop where
  captured : ∀ f ∈ c.captured, f.In ρ next
  apart : c.function.body.Apart c.site

theorem Closure.In.mono {c : Closure} {ρ ρ' : Ledger} {next next' : Nat} (h : c.In ρ next) (hρ : ρ.Within ρ')
    (hnext : next ≤ next') : c.In ρ' next' :=
  ⟨fun f hf => (h.captured f hf).mono hρ hnext, h.apart⟩

namespace Typing
open FrontEnd.Expr Env Check

/-- Open frames and captured ones follow the ledger, which has nothing for numbers that are not given out yet. -/
structure Recorded (ρ : Ledger) (env : Env) : Prop where
  frames : ∀ f ∈ env.frames, f.In ρ env.nextScope
  closures : ∀ (i : Nat) (c : Closure), env.closures[i]? = some c → c.In ρ env.nextScope
  fresh : ∀ n, env.nextScope ≤ n → ∀ id, ρ n id = none

/-- The ledger has nothing for the innermost frame but what this frame has. -/
def Exact (ρ : Ledger) (env : Env) : Prop := ∀ f ∈ env.frames.head?, ∀ id, ρ f.id id = f.vars.find? id

/-- The frames are the same up to variables of the innermost one, and the ledger `ρ'` has been kept up. `own` says
whether the innermost frame may be bound in. -/
structure Kept (own : Prop) (ρ' : Ledger) (env env' : Env) : Prop where
  recorded : Recorded ρ' env'
  exact : own → Exact ρ' env'
  nextScope : env.nextScope ≤ env'.nextScope
  scope : env'.currentScope? = env.currentScope?
  tail : env'.frames.tail = env.frames.tail

/-- The open frames follow the ledger. -/
def Point.Follows (point : Point) (ρ : Ledger) : Prop := ∀ f ∈ point.env.frames, f.Follows ρ

/-- The monitor lets all points pass that follow the ledger. -/
def Passes (monitor : Monitor) (ρ : Ledger) : Prop := ∀ point : Point, point.Follows ρ → monitor point = none

/-- `ρ'` goes on with `ρ`, with news only for frames whose numbers `env` has not given out yet and, if it is bound in,
the innermost one. -/
structure Continues (own : Prop) (ρ ρ' : Ledger) (env : Env) : Prop where
  within : ρ.Within ρ'
  news : ∀ n < env.nextScope, (own → env.currentScope? ≠ some n) → ρ' n = ρ n

/-- A step, made under different monitors, has a ledger that all its points follow. -/
def Records {α : Type} (own : Prop) (x : Monitor → Check α) (env : Env) : Prop :=
  ∀ ρ, Recorded ρ env → (own → Exact ρ env) → ∃ ρ', Continues own ρ ρ' env ∧
    (∀ monitor, Passes monitor ρ' → x monitor env = x noMonitor env) ∧
    ∀ a env', x noMonitor env = .ok a env' → Kept own ρ' env env'

section
variable {own : Prop} {ρ ρ' ρ'' : Ledger} {env env' env'' : Env} {monitor : Monitor}

theorem Passes.mono (h : Passes monitor ρ') (hρ : ρ.Within ρ') : Passes monitor ρ :=
  fun point hp => h point fun f hf id t ht => hρ _ _ _ (hp f hf id t ht)

theorem Passes.recorded (h : Passes monitor ρ) (hr : Recorded ρ env) (t : Trail) (moment : Moment) :
    monitor ⟨t, moment, env⟩ = none :=
  h _ fun f hf => (hr.frames f hf).follows

theorem Continues.refl (ρ : Ledger) (env : Env) : Continues own ρ ρ env := ⟨.refl ρ, fun _ _ _ => rfl⟩

theorem Continues.trans (h : Continues own ρ ρ' env) (h' : Continues own ρ' ρ'' env')
    (hn : env.nextScope ≤ env'.nextScope) (hs : env'.currentScope? = env.currentScope?) :
    Continues own ρ ρ'' env := by
  refine ⟨h.within.trans h'.within, fun n hlt hne => ?_⟩
  rw [h'.news n (Nat.lt_of_lt_of_le hlt hn) (hs ▸ hne), h.news n hlt hne]

theorem Kept.trans (h : Kept own ρ' env env') (h' : Kept own ρ'' env' env'') : Kept own ρ'' env env'' :=
  ⟨h'.recorded, h'.exact, Nat.le_trans h.nextScope h'.nextScope, h'.scope.trans h.scope, h'.tail.trans h.tail⟩

/-- There is nothing to say about a closure that does not exist. -/
theorem Recorded.closure (h : Recorded ρ env) (i : Nat) : (env.closure i).In ρ env.nextScope := by
  cases hc : env.closures[i]? with
  | some c =>
    rw [closure_eq hc]
    exact h.closures i c hc
  | none =>
    have hdefault : env.closure i = default := by simp [Env.closure, Array.getD_eq_getD_getElem?, hc]
    rw [hdefault]
    refine ⟨fun f hf => absurd hf List.not_mem_nil, fun q loc id value hmem => ?_⟩
    rcases mem_nodes.1 hmem with heq | ⟨k, part, hk, -⟩
    · cases heq
    · cases hk

theorem Recorded.mono (h : Recorded ρ env) (hρ : ρ.Within ρ') (hfresh : ∀ n, env.nextScope ≤ n → ∀ id, ρ' n id = none) :
    Recorded ρ' env :=
  ⟨fun f hf => (h.frames f hf).mono hρ (Nat.le_refl _), fun i c hc => (h.closures i c hc).mono hρ (Nat.le_refl _),
    hfresh⟩

theorem Recorded.enter (h : Recorded ρ env) : Recorded ρ env.enter := by
  refine ⟨?_, fun i c hc => (h.closures i c hc).mono (.refl ρ) (Nat.le_succ _), fun n hn =>
    h.fresh n (Nat.le_of_succ_le hn)⟩
  refine List.forall_mem_cons.2 ⟨⟨fun _ _ ht => (nomatch ht), Nat.lt_succ_self _⟩, fun f hf => ?_⟩
  exact (h.frames f hf).mono (.refl ρ) (Nat.le_succ _)

/-- There is nothing in the ledger for a new frame. -/
theorem Recorded.exact_enter (h : Recorded ρ env) : Exact ρ env.enter := by
  rintro _ ⟨⟩ id
  exact h.fresh _ (Nat.le_refl _) id

/-- There is nothing in the ledger for a name that is free in the innermost frame. -/
theorem Exact.none_of_free {f : Frame} {fs : List Frame} {id : Text} (h : Exact ρ env) (hf : env.frames = f :: fs)
    (hfree : env.hasVar id = false) : ρ f.id id = none := by
  rw [h f (by rw [hf]; rfl) id, ← Option.not_isSome_iff_eq_none]
  simpa [Env.hasVar, hf, Dictionary.contains] using hfree

/-- With the binding of a free name written into it, the ledger is kept up. -/
theorem Recorded.bindVar {f : Frame} {fs : List Frame} {id : Text} (h : Recorded ρ env) (he : Exact ρ env)
    (hf : env.frames = f :: fs) (hnone : ρ f.id id = none) (t : Ty) :
    Kept own (ρ.write f.id id t) env { env with frames := { f with vars := f.vars.insert id t } :: fs } := by
  have hbelow : f.id < env.nextScope := (h.frames f (hf ▸ List.mem_cons_self)).below
  have hr : Recorded (ρ.write f.id id t) env := by
    refine h.mono (Ledger.within_write hnone t) fun n hn id' => ?_
    rw [Ledger.write, if_neg fun heq => by omega]
    exact h.fresh n hn id'
  have hexact : ∀ id', ρ.write f.id id t f.id id' = (f.vars.insert id t).find? id' := by
    intro id'
    rw [Ledger.write, Dictionary.find?_insert, ← he f (by rw [hf]; rfl) id']
    by_cases hid : id' = id <;> simp [hid]
  refine ⟨⟨?_, hr.closures, hr.fresh⟩, fun _ => ?_, Nat.le_refl _, ?_, ?_⟩
  · have hframes := hr.frames
    rw [hf] at hframes
    refine List.forall_mem_cons.2 ⟨⟨fun id' t' ht' => ?_, hbelow⟩, (List.forall_mem_cons.1 hframes).2⟩
    rw [hexact]
    exact ht'
  · rintro _ ⟨⟩
    exact hexact
  · rw [currentScope?, currentScope?, hf]
    rfl
  · rw [hf]
    rfl

/-- After a step in other frames, with the frames from before. -/
theorem Recorded.restore (h' : Recorded ρ' env') (h : Recorded ρ env) (he : own → Exact ρ env) (hρ : ρ.Within ρ')
    (hold : ∀ n < env.nextScope, ρ' n = ρ n) (hnext : env.nextScope ≤ env'.nextScope) :
    Kept own ρ' env { env' with frames := env.frames } := by
  refine ⟨⟨fun f hf => (h.frames f hf).mono hρ hnext, h'.closures, h'.fresh⟩, fun ho f hf id => ?_, hnext, rfl, rfl⟩
  rw [hold _ (h.frames f (List.mem_of_mem_head? hf)).below]
  exact he ho f hf id

end

namespace Records
variable {own : Prop} {α β : Type} {env : Env}

/-- A step that no monitor sees and that needs no entry. -/
theorem of_kept {x : Check α} (h : ∀ ρ, Recorded ρ env → (own → Exact ρ env) → ∀ a env', x env = .ok a env' →
    Kept own ρ env env') : Records own (fun _ => x) env :=
  fun ρ hr he => ⟨ρ, .refl ρ env, fun _ _ => rfl, h ρ hr he⟩

theorem assuming {x : Monitor → Check α} (h : ∀ ρ, Recorded ρ env → Records own x env) : Records own x env :=
  fun ρ hr => h ρ hr ρ hr

theorem pure (a : α) : Records own (fun _ => Pure.pure a) env := by
  refine of_kept fun ρ hr he b env' hrun => ?_
  cases hrun
  exact ⟨hr, he, Nat.le_refl _, rfl, rfl⟩

theorem fails {fault : Fault} : Records own (fun _ => (throw fault : Check α)) env := by
  refine of_kept fun ρ hr he b env' hrun => ?_
  cases hrun

theorem bind {x : Monitor → Check α} {f : Monitor → α → Check β} (hx : Records own x env)
    (hf : ∀ a env', x noMonitor env = .ok a env' → Records own (fun monitor => f monitor a) env') :
    Records own (fun monitor => x monitor >>= f monitor) env := by
  intro ρ hr he
  obtain ⟨ρ₁, hc₁, hpass₁, hkept₁⟩ := hx ρ hr he
  simp only [bind_apply]
  cases hrun : x noMonitor env with
  | error fault env₁ =>
    refine ⟨ρ₁, hc₁, fun monitor hm => ?_, fun b env' hb => ?_⟩
    · rw [hpass₁ monitor hm, hrun]
    · cases hb
  | ok a env₁ =>
    have hk₁ := hkept₁ a env₁ hrun
    obtain ⟨ρ₂, hc₂, hpass₂, hkept₂⟩ := hf a env₁ hrun ρ₁ hk₁.recorded hk₁.exact
    refine ⟨ρ₂, hc₁.trans hc₂ hk₁.nextScope hk₁.scope, fun monitor hm => ?_, fun b env' hb => ?_⟩
    · rw [hpass₁ monitor (hm.mono hc₂.within), hrun]
      exact hpass₂ monitor hm
    · exact hk₁.trans (hkept₂ b env' hb)

theorem get {f : Monitor → Env → Check α} (h : Records own (fun monitor => f monitor env) env) :
    Records own (fun monitor => MonadState.get >>= f monitor) env := h

theorem ite {c : Prop} [Decidable c] {x y : Monitor → Check α} (hx : c → Records own x env)
    (hy : ¬ c → Records own y env) : Records own (fun monitor => if c then x monitor else y monitor) env := by
  split
  · next h => exact hx h
  · next h => exact hy h

/-- A condition that is refused, in front of what comes next. -/
theorem require {c : Prop} [Decidable c] {fault : Fault} {f : Monitor → Unit → Check α}
    (h : ¬ c → Records own (fun monitor => f monitor ()) env) :
    Records own (fun monitor => if c then (throw fault : Check Unit) >>= f monitor else f monitor ()) env := by
  have hstop : Records own (fun _ => (throw fault : Check Unit)) env := fails
  refine ite (fun _ => hstop.bind fun a env' hrun => ?_) h
  cases hrun

/-! ## Single steps -/

theorem changeOr {cause : InternalError} {f : Env → Option Env}
    (h : ∀ ρ, Recorded ρ env → (own → Exact ρ env) → ∀ env', f env = some env' → Kept own ρ env env') :
    Records own (fun _ => changeOr cause f) env := by
  refine of_kept fun ρ hr he a env' hrun => ?_
  rw [changeOr_apply] at hrun
  cases hf : f env with
  | none =>
    rw [hf] at hrun
    cases hrun
  | some env₁ =>
    rw [hf] at hrun
    cases hrun
    exact h ρ hr he _ hf

/-- A change of the notes. -/
theorem notes (f : Notes → Notes) : Records own (fun _ => modify fun env => { env with notes := f env.notes }) env := by
  refine of_kept fun ρ hr he a env' hrun => ?_
  cases hrun
  exact ⟨⟨hr.frames, hr.closures, hr.fresh⟩, he, Nat.le_refl _, rfl, rfl⟩

theorem note (p : Path) (t : Ty) : Records own (fun _ => Check.note p t) env := notes (·.setType p t)

theorem setProgress (i : Nat) (progress : Progress) : Records own (fun _ => Check.setProgress i progress) env := by
  refine of_kept fun ρ hr he a env' hrun => ?_
  cases hrun
  refine ⟨⟨hr.frames, fun j c hj => ?_, hr.fresh⟩, he, Nat.le_refl _, rfl, rfl⟩
  rw [getElem?_setProgress] at hj
  split at hj
  · obtain ⟨c', hc', rfl⟩ := Option.map_eq_some_iff.1 hj
    obtain ⟨hcaptured, hapart⟩ := hr.closures j c' hc'
    exact ⟨hcaptured, hapart⟩
  · exact hr.closures j c hj

theorem register {id : Text} {f : Function} {site : Path} (hf : f.body.Apart site) :
    Records own (fun _ => Check.register id f site) env := by
  refine changeOr fun ρ hr he env' h => ?_
  obtain ⟨g, gs, hg, rfl⟩ := exists_of_register? h
  have hframes := hr.frames
  rw [hg] at hframes
  obtain ⟨hin, hins⟩ := List.forall_mem_cons.1 hframes
  refine ⟨⟨List.forall_mem_cons.2 ⟨⟨hin.follows, hin.below⟩, hins⟩, fun j c hj => ?_, hr.fresh⟩, fun ho => ?_,
    Nat.le_refl _, by rw [currentScope?, currentScope?, hg]; rfl, by rw [hg]; rfl⟩
  · rw [Array.getElem?_push] at hj
    split at hj
    · cases hj
      exact ⟨hr.frames, hf⟩
    · exact hr.closures j c hj
  · have hexact := he ho g (by rw [hg]; rfl)
    rintro _ ⟨⟩
    exact hexact

theorem linkSiblings : Records own (fun _ => Check.linkSiblings) env := by
  refine changeOr fun ρ hr he env' h => ?_
  cases hframes : env.frames with
  | nil =>
    rw [linkSiblings?, hframes] at h
    cases h
  | cons f fs =>
    obtain ⟨store, hlink, -, hstore⟩ := linkSiblings?_eq hframes
    cases hlink.symm.trans h
    refine ⟨⟨hr.frames, fun j c hj => ?_, hr.fresh⟩, he, Nat.le_refl _, rfl, rfl⟩
    rw [hstore] at hj
    split at hj
    · obtain ⟨c', hc', rfl⟩ := Option.map_eq_some_iff.1 hj
      obtain ⟨hcaptured, hapart⟩ := hr.closures j c' hc'
      refine ⟨?_, hapart⟩
      unfold Closure.withSiblings
      cases hc : c'.captured with
      | nil => exact fun f hf => (nomatch hf)
      | cons g gs =>
        rw [hc] at hcaptured
        obtain ⟨hin, hins⟩ := List.forall_mem_cons.1 hcaptured
        exact List.forall_mem_cons.2 ⟨⟨hin.follows, hin.below⟩, hins⟩
    · exact hr.closures j c hj

theorem bindVar {id : Text} (t : Ty) (hfree : env.hasVar id = false) :
    Records True (fun _ => Check.bindVar id t) env := by
  intro ρ hr he
  cases hf : env.frames with
  | nil =>
    refine ⟨ρ, .refl ρ env, fun _ _ => rfl, fun a env' hrun => ?_⟩
    simp only [Check.bindVar, changeOr_apply, bindVar?, modifyInnermost?, hf] at hrun
    cases hrun
  | cons f fs =>
    have hnone := (he trivial).none_of_free hf hfree
    refine ⟨ρ.write f.id id t, ⟨Ledger.within_write hnone t, fun n hlt hne => ?_⟩, fun _ _ => rfl,
      fun a env' hrun => ?_⟩
    · funext id'
      have hne := hne trivial
      rw [currentScope?, hf] at hne
      exact if_neg fun h => hne (by rw [h.1]; rfl)
    · simp only [Check.bindVar, changeOr_apply, bindVar?, modifyInnermost?, hf] at hrun
      cases hrun
      exact hr.bindVar (he trivial) hf hnone t

theorem inNewFrame {x : Monitor → Check α} (h : Records True x env.enter) :
    Records own (fun monitor => Check.inNewFrame (x monitor)) env := by
  intro ρ hr he
  obtain ⟨ρ', hc, hpass, hkept⟩ := h ρ hr.enter fun _ => hr.exact_enter
  have hold : ∀ n < env.nextScope, ρ' n = ρ n := by
    intro n hlt
    refine hc.news n (Nat.lt_succ_of_lt hlt) fun _ heq => ?_
    exact absurd (Option.some.inj heq) (Nat.ne_of_gt hlt)
  refine ⟨ρ', ⟨hc.within, fun n hlt _ => hold n hlt⟩, fun monitor hm => ?_, fun a env' hrun => ?_⟩
  · simp only [Check.inNewFrame, hpass monitor hm]
  · simp only [Check.inNewFrame] at hrun
    cases hx : x noMonitor env.enter with
    | error fault env₁ =>
      rw [hx] at hrun
      cases hrun
    | ok b env₁ =>
      rw [hx] at hrun
      cases hrun
      have hk := hkept _ env₁ hx
      have hleave : env₁.leave = { env₁ with frames := env.frames } := by
        rw [Env.leave, hk.tail]
        rfl
      rw [hleave]
      exact hk.recorded.restore hr he hc.within hold (Nat.le_of_succ_le hk.nextScope)

theorem inFrames {x : Monitor → Check α} {frames : List Frame} (h : Records False x { env with frames })
    (hframes : ∀ ρ, Recorded ρ env → ∀ f ∈ frames, f.In ρ env.nextScope) :
    Records own (fun monitor => Check.inFrames frames (x monitor)) env := by
  intro ρ hr he
  have hr₀ : Recorded ρ { env with frames } := ⟨hframes ρ hr, hr.closures, hr.fresh⟩
  obtain ⟨ρ', hc, hpass, hkept⟩ := h ρ hr₀ False.elim
  have hold : ∀ n < env.nextScope, ρ' n = ρ n := fun n hlt => hc.news n hlt False.elim
  refine ⟨ρ', ⟨hc.within, fun n hlt _ => hold n hlt⟩, fun monitor hm => ?_, fun a env' hrun => ?_⟩
  · simp only [Check.inFrames, hpass monitor hm]
  · simp only [Check.inFrames] at hrun
    cases hx : x noMonitor { env with frames } with
    | error fault env₁ =>
      rw [hx] at hrun
      cases hrun
    | ok b env₁ =>
      rw [hx] at hrun
      cases hrun
      have hk := hkept _ env₁ hx
      exact hk.recorded.restore hr he hc.within hold hk.nextScope

theorem watched {t : Trail} {step : Step} {inner : Monitor → Trail → Check α}
    (h : Records own (fun monitor => inner monitor (⟨step, env⟩ :: t)) env) :
    Records own (fun monitor => Typing.watched monitor t step (inner monitor)) env := by
  intro ρ hr he
  obtain ⟨ρ', hc, hpass, hkept⟩ := h ρ hr he
  simp only [watched_noMonitor]
  refine ⟨ρ', hc, fun monitor hm => ?_, hkept⟩
  rw [watched_passed _ ((hm.mono hc.within).recorded hr _ _)]
  · exact hpass monitor hm
  · intro a env' hrun
    exact hm.recorded (hkept a env' ((hpass monitor hm).symm.trans hrun)).recorded _ _

end Records
end Typing
end FrontEnd
