import FrontEnd.Scope
import Mathlib.Data.List.Basic

/-!
# Environments of a session

* `Frame.outline` : a stack of frames without the variables of the innermost one, which is what the functions of the
  innermost frame are checked in;
* `Env.Grows` : what a session shares only grows: closures keep their function and their frames, frame numbers are not
  reused, settled return types stay;
* `Env.Extends` : besides, the frames are the same up to variables of the innermost one;
* `Env.Linked` : frames are numbered outwards in decreasing order, and the closures of every open frame have captured
  just the open frames, from theirs outwards. `declaringFrames?_eq` : so these are found again by the number.
-/

namespace FrontEnd

namespace Frame

/-- A stack of frames without the variables of the innermost one. -/
def outline : List Frame → List Frame
  | [] => []
  | f :: fs => { f with vars := ∅ } :: fs

theorem outline_eq_nil {fs : List Frame} : outline fs = [] ↔ fs = [] := by
  cases fs <;> simp [outline]

theorem outline_eq_cons {fs rest : List Frame} {f : Frame} (h : outline fs = outline (f :: rest)) :
    ∃ f', fs = f' :: rest ∧ f'.id = f.id ∧ f'.funs = f.funs := by
  cases fs with
  | nil => cases h
  | cons f' rest' =>
    obtain ⟨hf, rfl⟩ := List.cons.inj h
    obtain ⟨hid, -, hfuns⟩ := Frame.mk.inj hf
    exact ⟨f', rfl, hid, hfuns⟩

theorem tail_eq_of_outline_eq {fs fs' : List Frame} (h : outline fs = outline fs') : fs.tail = fs'.tail := by
  cases fs' with
  | nil => rw [outline_eq_nil.1 h]
  | cons f rest =>
    obtain ⟨f', rfl, -⟩ := outline_eq_cons h
    rfl

/-- Stacks with the same outline have the same parts but for variables of the innermost frame. -/
theorem suffix_of_outline_eq {fs fs' rest : List Frame} {f : Frame} (h : outline fs' = outline fs)
    (hs : f :: rest <:+ fs') : ∃ g, g :: rest <:+ fs ∧ g.id = f.id ∧ g.funs = f.funs := by
  cases fs' with
  | nil => simp at hs
  | cons f' rest' =>
    obtain ⟨g, rfl, hid, hfuns⟩ := outline_eq_cons h.symm
    rcases List.suffix_cons_iff.1 hs with heq | hs
    · obtain ⟨rfl, rfl⟩ := List.cons.inj heq
      exact ⟨g, List.suffix_refl _, hid, hfuns⟩
    · exact ⟨f, hs.trans (List.suffix_cons _ _), rfl, rfl⟩

theorem findSome?_funs_outline (fs : List Frame) (id : Text) :
    (outline fs).findSome? (·.funs.find? id) = fs.findSome? (·.funs.find? id) := by
  cases fs <;> rfl

theorem map_id_outline (fs : List Frame) : (outline fs).map (·.id) = fs.map (·.id) := by
  cases fs <;> rfl

end Frame

namespace Env
open FrontEnd.Frame

theorem closure_eq {env : Env} {i : Nat} {c : Closure} (h : env.closures[i]? = some c) : env.closure i = c := by
  simp [closure, Array.getD_eq_getD_getElem?, h]

theorem exists_of_lookupFun? {env : Env} {id : Text} {i : Nat} (h : env.lookupFun? id = some i) :
    ∃ f fs, f :: fs <:+ env.frames ∧ f.funs.find? id = some i := by
  obtain ⟨inner, f, fs, hfs, hf, -⟩ := List.findSome?_eq_some_iff.1 h
  exact ⟨f, fs, ⟨inner, hfs.symm⟩, hf⟩

/-! ## Changes of the innermost frame -/

theorem exists_of_bindVar? {env env' : Env} {id : Text} {t : Ty} (h : env.bindVar? id t = some env') :
    ∃ f fs, env.frames = f :: fs ∧ env' = { env with frames := { f with vars := f.vars.insert id t } :: fs } := by
  unfold bindVar? modifyInnermost? at h
  split at h
  · cases h
  · next f fs hf =>
    cases h
    exact ⟨f, fs, hf, rfl⟩

theorem exists_of_register? {env env' : Env} {id : Text} {function : Function} {site : Path}
    (h : env.register? id function site = some env') : ∃ f fs, env.frames = f :: fs ∧ env' = { env with
      frames := { f with funs := f.funs.insert id env.closures.size } :: fs
      closures := env.closures.push { function, site, captured := env.frames, scope := f.id } } := by
  unfold register? at h
  split at h
  · cases h
  · next f fs hf =>
    cases h
    exact ⟨f, fs, hf, rfl⟩

/-! ## Siblings -/

theorem getElem?_foldl_modify {change : Closure → Closure} (hc : ∀ c, change (change c) = change c)
    (entries : List (Text × Nat)) (store : Array Closure) (j : Nat) :
    (entries.foldl (fun store (_, i) => store.modify i change) store)[j]? =
      if j ∈ entries.map (·.2) then store[j]?.map change else store[j]? := by
  induction entries generalizing store with
  | nil => rfl
  | cons entry rest ih =>
    rw [List.foldl_cons, ih, Array.getElem?_modify]
    by_cases hj : entry.2 = j
    · subst hj
      rw [if_pos rfl, List.map_cons, if_pos List.mem_cons_self]
      split
      · rw [Option.map_map, show change ∘ change = change from funext hc]
      · rfl
    · rw [if_neg hj, List.map_cons]
      simp only [List.mem_cons, Ne.symm hj, false_or]

theorem size_foldl_modify (change : Closure → Closure) (entries : List (Text × Nat)) (store : Array Closure) :
    (entries.foldl (fun store (_, i) => store.modify i change) store).size = store.size := by
  induction entries generalizing store with
  | nil => rfl
  | cons entry rest ih => rw [List.foldl_cons, ih, Array.size_modify]

/-- Linking shows the functions of the innermost frame to their closures, and changes nothing else. -/
theorem linkSiblings?_eq {env : Env} {f : Frame} {fs : List Frame} (hf : env.frames = f :: fs) :
    ∃ store : Array Closure, env.linkSiblings? = some { env with closures := store } ∧
      store.size = env.closures.size ∧ ∀ j, store[j]? =
        if j ∈ f.funs.toList.map (·.2) then env.closures[j]?.map (·.withSiblings f.funs) else env.closures[j]? := by
  have hidem : ∀ c : Closure, (c.withSiblings f.funs).withSiblings f.funs = c.withSiblings f.funs := by
    intro c
    obtain ⟨_, _, _, _ | ⟨g, gs⟩, _⟩ := c <;> rfl
  unfold linkSiblings?
  rw [hf]
  exact ⟨_, rfl, size_foldl_modify _ _ _, getElem?_foldl_modify hidem _ _⟩

/-! ## Growth -/

structure Grows (env env' : Env) : Prop where
  closures : ∀ (i : Nat) (c : Closure), env.closures[i]? = some c →
    ∃ progress, env'.closures[i]? = some { c with progress }
  nextScope : env.nextScope ≤ env'.nextScope
  returns : ∀ (i : Nat) (c : Closure), env.closures[i]? = some c → env.returnOf c ≠ .any →
    env'.returnOf c = env.returnOf c

structure Extends (env env' : Env) : Prop extends Grows env env' where
  frames : outline env'.frames = outline env.frames

theorem Grows.refl (env : Env) : Grows env env :=
  ⟨fun _ c h => ⟨c.progress, h⟩, Nat.le_refl _, fun _ _ _ _ => rfl⟩

theorem Grows.trans {env env' env'' : Env} (h : Grows env env') (h' : Grows env' env'') : Grows env env'' := by
  refine ⟨fun i c hc => ?_, Nat.le_trans h.nextScope h'.nextScope, fun i c hc hr => ?_⟩
  · obtain ⟨progress, hc'⟩ := h.closures i c hc
    obtain ⟨progress', hc''⟩ := h'.closures i _ hc'
    exact ⟨progress', hc''⟩
  · obtain ⟨progress, hc'⟩ := h.closures i c hc
    have hr' := h.returns i c hc hr
    have := h'.returns i _ hc' (show env'.returnOf c ≠ .any by rwa [hr'])
    exact this.trans hr'

theorem Extends.refl (env : Env) : Extends env env := ⟨.refl env, rfl⟩

theorem Extends.trans {env env' env'' : Env} (h : Extends env env') (h' : Extends env' env'') : Extends env env'' :=
  ⟨h.toGrows.trans h'.toGrows, h'.frames.trans h.frames⟩

theorem lookupFun?_of_outline_eq {env env' : Env} (h : outline env'.frames = outline env.frames) (id : Text) :
    env'.lookupFun? id = env.lookupFun? id := by
  rw [lookupFun?, lookupFun?, ← findSome?_funs_outline, h, findSome?_funs_outline]

theorem Extends.lookupFun?_eq {env env' : Env} (h : Extends env env') (id : Text) :
    env'.lookupFun? id = env.lookupFun? id :=
  lookupFun?_of_outline_eq h.frames id

theorem Extends.frames_ne_nil {env env' : Env} (h : Extends env env') (hne : env.frames ≠ []) : env'.frames ≠ [] := by
  intro heq
  have := h.frames
  rw [heq] at this
  exact hne (outline_eq_nil.1 this.symm)

theorem grows_enter (env : Env) : Grows env env.enter :=
  ⟨fun _ c h => ⟨c.progress, h⟩, Nat.le_succ _, fun _ _ _ _ => rfl⟩

theorem getElem?_setProgress (env : Env) (i j : Nat) (progress : Progress) :
    (env.setProgress i progress).closures[j]? =
      if i = j then env.closures[j]?.map ({ · with progress }) else env.closures[j]? :=
  Array.getElem?_modify

theorem extends_setProgress (env : Env) (i : Nat) (progress : Progress) : Extends env (env.setProgress i progress) := by
  refine ⟨⟨fun j c hc => ?_, Nat.le_refl _, fun _ _ _ _ => rfl⟩, rfl⟩
  rw [getElem?_setProgress, hc]
  split
  · exact ⟨progress, rfl⟩
  · exact ⟨c.progress, rfl⟩

theorem extends_bindVar? {env env' : Env} {id : Text} {t : Ty} (h : env.bindVar? id t = some env') :
    Extends env env' := by
  obtain ⟨f, fs, hf, rfl⟩ := exists_of_bindVar? h
  refine ⟨⟨fun _ c hc => ⟨c.progress, hc⟩, Nat.le_refl _, fun _ _ _ _ => rfl⟩, ?_⟩
  rw [hf]
  rfl

/-- After a step in other frames, with the frames from before. -/
theorem Grows.restore {env env' : Env} (h : Grows env env') : Extends env { env' with frames := env.frames } :=
  ⟨⟨h.closures, h.nextScope, h.returns⟩, rfl⟩

theorem Extends.leave_eq {env env' : Env} (h : Extends env.enter env') :
    env'.leave = { env' with frames := env.frames } := by
  rw [leave, tail_eq_of_outline_eq h.frames]
  rfl

/-! ## Linked environments -/

structure Linked (env : Env) : Prop where
  decreasing : (env.frames.map (·.id)).Pairwise (· > ·)
  bounded : ∀ id ∈ env.frames.map (·.id), id < env.nextScope
  captured : ∀ f fs, f :: fs <:+ env.frames → ∀ id i, f.funs.find? id = some i →
    ∃ c, env.closures[i]? = some c ∧ c.scope = f.id ∧ c.captured = outline (f :: fs)

theorem linked_empty : Linked {} := ⟨.nil, by simp, by simp⟩

theorem Linked.extend {env env' : Env} (h : Linked env) (hx : Extends env env') : Linked env' := by
  have hids : env'.frames.map (·.id) = env.frames.map (·.id) := by
    rw [← map_id_outline, hx.frames, map_id_outline]
  refine ⟨hids ▸ h.decreasing, fun id hid => ?_, fun f fs hs id i hi => ?_⟩
  · exact Nat.lt_of_lt_of_le (h.bounded id (hids ▸ hid)) hx.nextScope
  · obtain ⟨g, hg, hgid, hgfuns⟩ := suffix_of_outline_eq hx.frames hs
    obtain ⟨c, hc, hscope, hcaptured⟩ := h.captured g fs hg id i (hgfuns ▸ hi)
    obtain ⟨progress, hc'⟩ := hx.closures i c hc
    refine ⟨_, hc', hscope.trans hgid, hcaptured.trans ?_⟩
    simp [outline, hgid, hgfuns]

/-- The frames from one outwards, that one without its variables, are linked as well. -/
theorem Linked.of_suffix {env : Env} {f : Frame} {fs : List Frame} (h : Linked env) (hs : f :: fs <:+ env.frames) :
    Linked { env with frames := outline (f :: fs) } := by
  have hids : (outline (f :: fs)).map (·.id) <:+ env.frames.map (·.id) := by
    rw [map_id_outline]
    exact hs.map _
  refine ⟨h.decreasing.sublist hids.sublist, fun id hid => h.bounded id (hids.mem hid), fun g gs hg id i hi => ?_⟩
  have houtline : outline (outline (f :: fs)) = outline (f :: fs) := rfl
  obtain ⟨g', hg', hid, hfuns⟩ := suffix_of_outline_eq houtline hg
  obtain ⟨c, hc, hscope, hcaptured⟩ := h.captured g' gs (hg'.trans hs) id i (hfuns ▸ hi)
  refine ⟨c, hc, hscope.trans hid, hcaptured.trans ?_⟩
  simp [outline, hid, hfuns]

theorem Linked.enter {env : Env} (h : Linked env) : Linked env.enter := by
  refine ⟨?_, ?_, fun f fs hs id i hi => ?_⟩
  · exact List.pairwise_cons.2 ⟨h.bounded, h.decreasing⟩
  · refine List.forall_mem_cons.2 ⟨Nat.lt_succ_self _, fun id hid => ?_⟩
    exact Nat.lt_succ_of_lt (h.bounded id hid)
  · rcases List.suffix_cons_iff.1 hs with heq | hs
    · obtain ⟨rfl, -⟩ := List.cons.inj heq
      cases hi
    · exact h.captured f fs hs id i hi

/-- In a stack that is numbered so, a frame is found by its number. -/
theorem dropWhile_id_ne {frames fs : List Frame} {f : Frame} (h : (frames.map (·.id)).Pairwise (· > ·))
    (hs : f :: fs <:+ frames) : frames.dropWhile (·.id != f.id) = f :: fs := by
  induction frames with
  | nil => simp at hs
  | cons g gs ih =>
    rcases List.suffix_cons_iff.1 hs with heq | hs
    · obtain ⟨rfl, rfl⟩ := List.cons.inj heq
      simp
    · have hlt : f.id < g.id :=
        (List.pairwise_cons.1 h).1 f.id (List.mem_map.2 ⟨f, hs.subset List.mem_cons_self, rfl⟩)
      rw [List.dropWhile_cons_of_pos (by simp; omega)]
      exact ih (List.pairwise_cons.1 h).2 hs

/-- The frames of a declaration are found by the number of the innermost of them. -/
theorem declaringFrames?_eq {env : Env} {f : Frame} {fs : List Frame}
    (h : (env.frames.map (·.id)).Pairwise (· > ·)) (hs : f :: fs <:+ env.frames) :
    env.declaringFrames? f.id = some (outline (f :: fs)) := by
  unfold declaringFrames?
  rw [dropWhile_id_ne h hs]
  rfl

/-- A function that is looked up is that of a closure, whose number finds the frames which it has captured. -/
theorem Linked.closure_of_lookupFun? {env : Env} {id : Text} {i : Nat} (h : Linked env)
    (hi : env.lookupFun? id = some i) : ∃ f fs c, f :: fs <:+ env.frames ∧ f.funs.find? id = some i ∧
      env.closures[i]? = some c ∧ env.declaringFrames? c.scope = some c.captured := by
  obtain ⟨f, fs, hs, hf⟩ := exists_of_lookupFun? hi
  obtain ⟨c, hc, hscope, hcaptured⟩ := h.captured f fs hs id i hf
  refine ⟨f, fs, c, hs, hf, hc, ?_⟩
  rw [hscope, hcaptured]
  exact declaringFrames?_eq h.decreasing hs

end Env
end FrontEnd
