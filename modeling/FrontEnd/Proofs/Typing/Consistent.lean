import FrontEnd.Proofs.Scope
import FrontEnd.Proofs.Typing.Trail

/-!
# Consistent environments

What holds of the environment at every point of a check, in relation to the steps that are being made.

* `Registers` : a position of the store is that of a function of a block that is being typed;
* `Consistent` : the invariant; the closures in progress are those whose bodies are being walked, and each open frame's
  functions are those of a block that is being typed;
* `Consistent.extend`, `Consistent.enter`, `Consistent.walk` : how it is kept when an environment grows, when a frame is
  opened and when the walk of a body starts.
-/

namespace FrontEnd

/-- The environment in which the walk of the body of the closure at position `i` starts. -/
def Env.inBody (env : Env) (i : Nat) (frames : List Frame) : Env := { env.setProgress i .checking with frames }

/-- The environment after the walk of that body, which ended in `env'`. -/
def Env.afterBody (env : Env) (i : Nat) (env' : Env) : Env :=
  Env.setProgress { env' with frames := env.frames } i .checked

namespace Typing
open FrontEnd.Expr Env

inductive Registers (t : Trail) (env : Env) : Nat → Path → Function → Prop
  | intro {q : Path} {loc : Location} {functions : List Function} {statements : List Expr} {env₀ : Env} {k : Nat}
    {c : Closure} (hq : ⟨.node q (.block loc functions statements), env₀⟩ ∈ t) (hk : functions[k]? = some c.function)
    (hc : env.closures[env₀.closures.size + k]? = some c) (hs : c.site = k :: q) :
    Registers t env (env₀.closures.size + k) c.site c.function

namespace Registers
variable {t t' : Trail} {env env' : Env} {i j : Nat} {site : Path} {f g : Function}

theorem grow (h : Registers t env i site f) (hg : Grows env env') : Registers t env' i site f := by
  cases h with
  | @intro q loc functions statements env₀ k c hq hk hc hs =>
    obtain ⟨progress, hc'⟩ := hg.closures _ _ hc
    exact .intro (c := { c with progress }) hq hk hc' hs

theorem subset (h : Registers t env i site f) (ht : t ⊆ t') : Registers t' env i site f := by
  cases h with
  | intro hq hk hc hs => exact .intro (ht hq) hk hc hs

theorem closure (h : Registers t env i site f) : ∃ c, env.closures[i]? = some c ∧ c.site = site ∧ c.function = f := by
  cases h with
  | intro hq hk hc hs => exact ⟨_, hc, rfl, rfl⟩

theorem block (h : Registers t env i site f) : ∃ k q loc functions statements env₀,
    site = k :: q ∧ ⟨.node q (.block loc functions statements), env₀⟩ ∈ t ∧ functions[k]? = some f := by
  cases h with
  | intro hq hk hc hs => exact ⟨_, _, _, _, _, _, hs, hq, hk⟩

/-- A body belongs to one position only. -/
theorem position_unique {root : Path} {program : Expr} (ht : Nested root program t) (h : Registers t env i site f)
    (h' : Registers t env j site g) : i = j := by
  generalize hsite : site = site' at h'
  cases h with
  | intro hq hk hc hs =>
    cases h' with
    | intro hq' hk' hc' hs' =>
      rw [hs, hs'] at hsite
      obtain ⟨rfl, rfl⟩ := List.cons.inj hsite
      obtain ⟨-, rfl⟩ := Trail.entry_unique ht.paths_nodup hq hq'
      rfl

end Registers

structure Consistent (root : Path) (program : Expr) (t : Trail) (env : Env) : Prop where
  linked : env.Linked
  typed : ∀ f ∈ env.frames, ∀ id ty, f.vars.find? id = some ty → ty ≠ .any
  placed : ∀ (i : Nat) (c : Closure), env.closures[i]? = some c → Places root program c.site c.function
  settled : ∀ site ty, env.notes.returns[site]? = some ty → ∃ f, Places root program site f ∧ f.signature.ret = .any
  checking : ∀ (i : Nat) (c : Closure), env.closures[i]? = some c → (c.progress = .checking ↔ i ∈ t.positions)
  visible : ∀ f ∈ env.frames, ∀ id i, f.funs.find? id = some i → ∃ site g, Registers t env i site g
  walked : ∀ occasion i site env₀, ⟨.body occasion i site, env₀⟩ ∈ t → ∃ f, Registers t env i site f

namespace Consistent
variable {root : Path} {program : Expr} {t : Trail} {env env' : Env}

theorem empty : Consistent root program [] {} := by
  refine ⟨linked_empty, ?_, ?_, ?_, ?_, ?_, ?_⟩ <;> simp

/-- An environment that extends a consistent one has to be looked at only where things change. -/
theorem extend (h : Consistent root program t env) (hx : Extends env env')
    (typed : ∀ f ∈ env'.frames, ∀ id ty, f.vars.find? id = some ty → ty ≠ .any)
    (placed : ∀ (i : Nat) (c : Closure), env'.closures[i]? = some c → Places root program c.site c.function)
    (settled : ∀ site ty, env'.notes.returns[site]? = some ty →
      ∃ f, Places root program site f ∧ f.signature.ret = .any)
    (checking : ∀ (i : Nat) (c : Closure), env'.closures[i]? = some c → (c.progress = .checking ↔ i ∈ t.positions)) :
    Consistent root program t env' := by
  refine ⟨h.linked.extend hx, typed, placed, settled, checking, fun f hf id i hi => ?_,
    fun occasion i site env₀ hm => ?_⟩
  · obtain ⟨inner, fs, hfs⟩ := List.append_of_mem hf
    obtain ⟨g, hg, -, hfuns⟩ := Frame.suffix_of_outline_eq hx.frames ⟨inner, hfs.symm⟩
    obtain ⟨site, f', hr⟩ := h.visible g (hg.subset List.mem_cons_self) id i (hfuns ▸ hi)
    exact ⟨site, f', hr.grow hx.toGrows⟩
  · obtain ⟨f, hr⟩ := h.walked occasion i site env₀ hm
    exact ⟨f, hr.grow hx.toGrows⟩

theorem lookupVar?_ne_any (h : Consistent root program t env) {id : Text} {ty : Ty} (hv : env.lookupVar? id = some ty) :
    ty ≠ .any := by
  obtain ⟨_, f, _, hfs, hf, -⟩ := List.findSome?_eq_some_iff.1 hv
  exact h.typed f (by simp [hfs]) id ty hf

/-- The function of a visible closure is that of a block on the trail. -/
theorem registers {f : Frame} {fs : List Frame} {id : Text} {i : Nat} {c : Closure} (h : Consistent root program t env)
    (hs : f :: fs <:+ env.frames) (hi : f.funs.find? id = some i) (hc : env.closures[i]? = some c) :
    Registers t env i c.site c.function := by
  obtain ⟨site, g, hr⟩ := h.visible f (hs.subset List.mem_cons_self) id i hi
  obtain ⟨c', hc', rfl, rfl⟩ := hr.closure
  cases hc.symm.trans hc'
  exact hr

/-- A visible function whose body has not been looked at is not being walked, also not as another closure. -/
theorem not_mem_sites {i : Nat} {c : Closure} (h : Consistent root program t env) (ht : Nested root program t)
    (hr : Registers t env i c.site c.function) (hc : env.closures[i]? = some c) (hp : c.progress = .unchecked) :
    c.site ∉ t.sites := by
  intro hm
  obtain ⟨occasion, j, env₀, hb⟩ := Trail.mem_sites.1 hm
  obtain ⟨g, hr'⟩ := h.walked _ _ _ _ hb
  obtain rfl := hr.position_unique ht hr'
  have := (h.checking i c hc).2 (Trail.mem_positions.2 ⟨_, _, _, hb⟩)
  rw [hp] at this
  cases this

theorem lt_size_of_mem_positions {i : Nat} (h : Consistent root program t env) (hi : i ∈ t.positions) :
    i < env.closures.size := by
  obtain ⟨occasion, site, env₀, hb⟩ := Trail.mem_positions.1 hi
  obtain ⟨g, hr⟩ := h.walked _ _ _ _ hb
  obtain ⟨c, hc, -⟩ := hr.closure
  exact (Array.getElem?_eq_some_iff.1 hc).1

theorem not_mem_positions {i : Nat} {c : Closure} (h : Consistent root program t env) (hc : env.closures[i]? = some c)
    (hs : c.site ∉ t.sites) : i ∉ t.positions := by
  intro hm
  obtain ⟨occasion, site, env₀, hb⟩ := Trail.mem_positions.1 hm
  obtain ⟨g, hr⟩ := h.walked _ _ _ _ hb
  obtain ⟨c', hc', rfl, -⟩ := hr.closure
  cases hc.symm.trans hc'
  exact hs (Trail.mem_sites.2 ⟨_, _, _, hb⟩)

/-- After a step into a node was added to the trail. -/
theorem push {p : Path} {e : Expr} {env₀ : Env} (h : Consistent root program t env) :
    Consistent root program (⟨.node p e, env₀⟩ :: t) env := by
  refine ⟨h.linked, h.typed, h.placed, h.settled, h.checking, fun f hf id i hi => ?_, fun occasion i site env₁ hm => ?_⟩
  · obtain ⟨site, g, hr⟩ := h.visible f hf id i hi
    exact ⟨site, g, hr.subset (List.subset_cons_self _ _)⟩
  · rcases List.mem_cons.1 hm with heq | hm
    · cases heq
    · obtain ⟨g, hr⟩ := h.walked occasion i site env₁ hm
      exact ⟨g, hr.subset (List.subset_cons_self _ _)⟩

/-- After a step in other frames, with the frames from before. -/
theorem restore {t' : Trail} (h : Consistent root program t env) (h' : Consistent root program t' env')
    (hg : Grows env env') (ht : t'.positions = t.positions) :
    Consistent root program t { env' with frames := env.frames } :=
  h.extend hg.restore h.typed h'.placed h'.settled (ht ▸ h'.checking)

theorem enter (h : Consistent root program t env) : Consistent root program t env.enter := by
  refine ⟨h.linked.enter, ?_, h.placed, h.settled, h.checking, ?_, ?_⟩
  · refine List.forall_mem_cons.2 ⟨?_, h.typed⟩
    intro id ty hty
    cases hty
  · refine List.forall_mem_cons.2 ⟨?_, fun f hf id i hi => ?_⟩
    · intro id i hi
      cases hi
    · obtain ⟨site, g, hr⟩ := h.visible f hf id i hi
      exact ⟨site, g, hr.grow (grows_enter env)⟩
  · intro occasion i site env₀ hm
    obtain ⟨g, hr⟩ := h.walked occasion i site env₀ hm
    exact ⟨g, hr.grow (grows_enter env)⟩

theorem placed_setProgress {i : Nat} {progress : Progress}
    (h : ∀ (j : Nat) (c : Closure), env.closures[j]? = some c → Places root program c.site c.function) (j : Nat)
    (c : Closure) (hc : (env.setProgress i progress).closures[j]? = some c) :
    Places root program c.site c.function := by
  rw [getElem?_setProgress] at hc
  split at hc
  · obtain ⟨c', hc', rfl⟩ := Option.map_eq_some_iff.1 hc
    exact h j c' hc'
  · exact h j c hc

/-- The walk of a body starts in a consistent environment. -/
theorem walk (occasion : Occasion) {i : Nat} {c : Closure} {f : Frame} {fs : List Frame} {id : Text}
    (h : Consistent root program t env) (hc : env.closures[i]? = some c) (hs : f :: fs <:+ env.frames)
    (hi : f.funs.find? id = some i) :
    Consistent root program (⟨.body occasion i c.site, env⟩ :: t)
      (env.inBody i (Frame.outline (f :: fs))) := by
  have hx := extends_setProgress env i .checking
  have hgrow : ∀ {j site g}, Registers t env j site g → Registers (⟨.body occasion i c.site, env⟩ :: t)
      (env.inBody i (Frame.outline (f :: fs))) j site g := fun hr =>
    (hr.subset (List.subset_cons_self _ _)).grow ⟨hx.closures, hx.nextScope, hx.returns⟩
  refine ⟨(h.linked.extend hx).of_suffix hs, ?_, placed_setProgress h.placed, h.settled, fun j c' hj => ?_, ?_, ?_⟩
  · refine List.forall_mem_cons.2 ⟨?_, fun g hg => h.typed g (hs.subset (.tail _ hg))⟩
    intro id ty hty
    cases hty
  · rw [Trail.positions_body, List.mem_cons]
    rw [inBody, getElem?_setProgress] at hj
    split at hj
    · next heq =>
      obtain ⟨c'', -, rfl⟩ := Option.map_eq_some_iff.1 hj
      exact iff_of_true rfl (.inl heq.symm)
    · next hne =>
      rw [h.checking j c' hj]
      exact ⟨.inr, fun hm => hm.resolve_left (Ne.symm hne)⟩
  · refine List.forall_mem_cons.2 ⟨fun id j hj => ?_, fun g hg id j hj => ?_⟩
    · obtain ⟨site, g, hr⟩ := h.visible f (hs.subset List.mem_cons_self) id j hj
      exact ⟨site, g, hgrow hr⟩
    · obtain ⟨site, g', hr⟩ := h.visible g (hs.subset (.tail _ hg)) id j hj
      exact ⟨site, g', hgrow hr⟩
  · intro occasion' j site env₀ hm
    rcases List.mem_cons.1 hm with heq | hm
    · cases heq
      exact ⟨c.function, hgrow (h.registers hs hi hc)⟩
    · obtain ⟨g, hr⟩ := h.walked occasion' j site env₀ hm
      exact ⟨g, hgrow hr⟩

/-- The walk of a body leaves a consistent environment. -/
theorem walked_back {occasion : Occasion} {i : Nat} {site : Path} {env₀ : Env} (h : Consistent root program t env)
    (h' : Consistent root program (⟨.body occasion i site, env₀⟩ :: t) env') (hg : Grows env env')
    (hi : i ∉ t.positions) : Consistent root program t (env.afterBody i env') := by
  refine h.extend (hg.restore.trans (extends_setProgress _ _ _)) h.typed (placed_setProgress h'.placed) h'.settled
    fun j c hj => ?_
  rw [afterBody, getElem?_setProgress] at hj
  split at hj
  · next heq =>
    obtain ⟨c', -, rfl⟩ := Option.map_eq_some_iff.1 hj
    exact iff_of_false (by simp) (heq ▸ hi)
  · next hne =>
    rw [h'.checking j c hj, Trail.positions_body, List.mem_cons]
    exact ⟨fun hm => hm.resolve_left (Ne.symm hne), .inr⟩

end Consistent
end Typing
end FrontEnd
