import FrontEnd.Proofs.Syntax.Nodes
import FrontEnd.Proofs.Typing.Run
import Mathlib.Data.List.Perm.Subperm

/-!
# How the steps of a check nest

* `Nested` : the trails of a program's checks: a node is entered from its parent, or as the body of a function whose
  block is being typed; no body is entered while it is being walked;
* `Nested.paths_nodup`, `Nested.sites_nodup` : along such a trail no node occurs twice, and no body;
* `Nested.length_le` : so that a trail has at most two entries for each node of the program.

Only bodies that are walked already are kept out by definition. That nodes do not recur follows: a node that is entered
again would have its parent on the trail twice, or be a body that is being walked.
-/

namespace FrontEnd.Typing
open FrontEnd.Expr

namespace Trail
variable {p : Path} {e : Expr} {env : Env} {occasion : Occasion} {i : Nat} {site : Path} {t : Trail}

@[simp] theorem paths_node : paths (⟨.node p e, env⟩ :: t) = p :: paths t := rfl

@[simp] theorem paths_body : paths (⟨.body occasion i site, env⟩ :: t) = paths t := rfl

@[simp] theorem sites_node : sites (⟨.node p e, env⟩ :: t) = sites t := rfl

@[simp] theorem sites_body : sites (⟨.body occasion i site, env⟩ :: t) = site :: sites t := rfl

@[simp] theorem positions_node : positions (⟨.node p e, env⟩ :: t) = positions t := rfl

@[simp] theorem positions_body : positions (⟨.body occasion i site, env⟩ :: t) = i :: positions t := rfl

theorem mem_paths : p ∈ paths t ↔ ∃ e env, ⟨.node p e, env⟩ ∈ t := by
  simp only [paths, List.mem_filterMap]
  constructor
  · rintro ⟨⟨_ | _, env⟩, h, hp⟩
    · cases hp
      exact ⟨_, _, h⟩
    · cases hp
  · rintro ⟨e, env, h⟩
    exact ⟨_, h, rfl⟩

theorem mem_sites : site ∈ sites t ↔ ∃ occasion i env, ⟨.body occasion i site, env⟩ ∈ t := by
  simp only [sites, List.mem_filterMap]
  constructor
  · rintro ⟨⟨_ | _, env⟩, h, hp⟩
    · cases hp
    · cases hp
      exact ⟨_, _, _, h⟩
  · rintro ⟨occasion, i, env, h⟩
    exact ⟨_, h, rfl⟩

theorem mem_positions : i ∈ positions t ↔ ∃ occasion site env, ⟨.body occasion i site, env⟩ ∈ t := by
  simp only [positions, List.mem_filterMap]
  constructor
  · rintro ⟨⟨_ | _, env⟩, h, hp⟩
    · cases hp
    · cases hp
      exact ⟨_, _, _, h⟩
  · rintro ⟨occasion, site, env, h⟩
    exact ⟨_, h, rfl⟩

theorem length_eq (t : Trail) : t.length = (paths t).length + (sites t).length := by
  induction t with
  | nil => rfl
  | cons entry t ih =>
    obtain ⟨_ | _, env⟩ := entry
    · rw [paths_node, sites_node, List.length_cons, List.length_cons, ih]
      omega
    · rw [paths_body, sites_body, List.length_cons, List.length_cons, ih]
      omega

theorem entry_unique {p : Path} {e e' : Expr} {env env' : Env} {t : Trail} (ht : (paths t).Nodup)
    (h : ⟨.node p e, env⟩ ∈ t) (h' : ⟨.node p e', env'⟩ ∈ t) : e = e' ∧ env = env' := by
  induction t with
  | nil => cases h
  | cons entry t ih =>
    obtain ⟨_ | _, env₀⟩ := entry
    · rw [paths_node, List.nodup_cons] at ht
      rcases List.mem_cons.1 h with heq | hm
      · cases heq
        rcases List.mem_cons.1 h' with heq | hm'
        · cases heq
          exact ⟨rfl, rfl⟩
        · exact absurd (mem_paths.2 ⟨e', env', hm'⟩) ht.1
      · rcases List.mem_cons.1 h' with heq | hm'
        · cases heq
          exact absurd (mem_paths.2 ⟨e, env, hm⟩) ht.1
        · exact ih ht.2 hm hm'
    · rcases List.mem_cons.1 h with heq | hm
      · cases heq
      · rcases List.mem_cons.1 h' with heq | hm'
        · cases heq
        · exact ih ht hm hm'

end Trail

inductive Nested (root : Path) (program : Expr) : Trail → Prop
  | root {env : Env} : Nested root program [⟨.node root program, env⟩]
  | part {t : Trail} {p : Path} {e part : Expr} {k : Nat} {env env' : Env}
    (h : Nested root program (⟨.node p e, env⟩ :: t)) (hk : e.children[k]? = some part) (hb : e.bodyCount ≤ k) :
    Nested root program (⟨.node (k :: p) part, env'⟩ :: ⟨.node p e, env⟩ :: t)
  | body {t : Trail} {q : Path} {loc : Location} {functions : List Function} {statements : List Expr} {k i : Nat}
    {f : Function} {occasion : Occasion} {env env' : Env} (h : Nested root program t)
    (hq : ⟨.node q (.block loc functions statements), env⟩ ∈ t) (hk : functions[k]? = some f)
    (hs : k :: q ∉ t.sites) : Nested root program (⟨.body occasion i (k :: q), env'⟩ :: t)
  | bodyNode {t : Trail} {q : Path} {loc : Location} {functions : List Function} {statements : List Expr} {k i : Nat}
    {f : Function} {occasion : Occasion} {env env' env'' : Env}
    (h : Nested root program (⟨.body occasion i (k :: q), env'⟩ :: t))
    (hq : ⟨.node q (.block loc functions statements), env⟩ ∈ t) (hk : functions[k]? = some f) :
    Nested root program (⟨.node (k :: q) f.body, env''⟩ :: ⟨.body occasion i (k :: q), env'⟩ :: t)

namespace Nested
variable {root : Path} {program : Expr} {t : Trail}

theorem tail {entry entry' : Entry} (h : Nested root program (entry :: entry' :: t)) :
    Nested root program (entry' :: t) := by
  cases h with
  | part h _ _ => exact h
  | body h _ _ _ => exact h
  | bodyNode h _ _ => exact h

theorem of_cons {entry entry' : Entry} (h : Nested root program (entry :: t)) (hm : entry' ∈ t) :
    Nested root program t := by
  cases t with
  | nil => cases hm
  | cons => exact h.tail

theorem mem_nodes {p : Path} {e : Expr} {env : Env} (h : Nested root program t) (hm : ⟨.node p e, env⟩ ∈ t) :
    (p, e) ∈ nodes root program := by
  induction h generalizing p e env with
  | root =>
    cases List.mem_singleton.1 hm
    exact self_mem_nodes _ _
  | part h hk hb ih =>
    rcases List.mem_cons.1 hm with heq | hm
    · cases heq
      exact part_mem_nodes (ih List.mem_cons_self) hk
    · exact ih hm
  | body h hq hk hs ih =>
    rcases List.mem_cons.1 hm with heq | hm
    · cases heq
    · exact ih hm
  | bodyNode h hq hk ih =>
    rcases List.mem_cons.1 hm with heq | hm
    · cases heq
      exact part_mem_nodes (ih (.tail _ hq)) (children_of_functions hk)
    · exact ih hm

/-- A node other than the root is on a trail with its parent, and with its own walk if it is a body. -/
theorem parent {p : Path} {e : Expr} {k : Nat} {env : Env} (h : Nested root program t)
    (hm : ⟨.node (k :: p) e, env⟩ ∈ t) (hr : k :: p ≠ root) :
    ∃ e' env', ⟨.node p e', env'⟩ ∈ t ∧ (k < e'.bodyCount → k :: p ∈ t.sites) := by
  induction h with
  | root =>
    cases List.mem_singleton.1 hm
    exact absurd rfl hr
  | @part t p' e' _ _ env' _ h hk hb ih =>
    rcases List.mem_cons.1 hm with heq | hm
    · cases heq
      exact ⟨e', env', .tail _ List.mem_cons_self, fun hlt => absurd hb (by omega)⟩
    · obtain ⟨e', env', hm', hs⟩ := ih hm
      exact ⟨e', env', .tail _ hm', hs⟩
  | body h hq hk hs ih =>
    rcases List.mem_cons.1 hm with heq | hm
    · cases heq
    · obtain ⟨e', env', hm', hs'⟩ := ih hm
      exact ⟨e', env', .tail _ hm', fun hlt => .tail _ (hs' hlt)⟩
  | bodyNode h hq hk ih =>
    rcases List.mem_cons.1 hm with heq | hm
    · cases heq
      exact ⟨_, _, .tail _ (.tail _ hq), fun _ => List.mem_cons_self⟩
    · obtain ⟨e', env', hm', hs'⟩ := ih hm
      exact ⟨e', env', .tail _ hm', hs'⟩

theorem ne_root {p : Path} {e : Expr} {k : Nat} {env : Env} (h : Nested root program t)
    (hm : ⟨.node p e, env⟩ ∈ t) : k :: p ≠ root := by
  rintro rfl
  exact not_cons_suffix (suffix_of_mem_nodes (h.mem_nodes hm))

theorem paths_nodup (h : Nested root program t) : t.paths.Nodup := by
  induction h with
  | root => exact List.nodup_cons.2 ⟨List.not_mem_nil, List.nodup_nil⟩
  | @part t p e part k env env' h hk hb ih =>
    rw [Trail.paths_node] at ih
    rw [Trail.paths_node, Trail.paths_node]
    refine List.nodup_cons.2 ⟨fun hm => ?_, ih⟩
    rcases List.mem_cons.1 hm with heq | hm
    · exact List.cons_ne_self _ _ heq
    · obtain ⟨e', env', hm'⟩ := Trail.mem_paths.1 hm
      obtain ⟨e'', env'', hp, -⟩ := (h.of_cons hm').parent hm' (h.ne_root List.mem_cons_self)
      exact (List.nodup_cons.1 ih).1 (Trail.mem_paths.2 ⟨e'', env'', hp⟩)
  | body h hq hk hs ih => exact ih
  | @bodyNode t q loc functions statements k i f occasion env env' env'' h hq hk ih =>
    rw [Trail.paths_body] at ih
    rw [Trail.paths_node, Trail.paths_body]
    -- if the node of the body were on the trail already, then so were its walk, with which a second one cannot start
    refine List.nodup_cons.2 ⟨fun hm => ?_, ih⟩
    obtain ⟨e', env', hm'⟩ := Trail.mem_paths.1 hm
    have ht := h.of_cons hq
    obtain ⟨e'', env'', hp, hs'⟩ := ht.parent hm' (ht.ne_root hq)
    obtain rfl := nodes_unique (ht.mem_nodes hq) (ht.mem_nodes hp)
    cases h with
    | body _ _ _ hs => exact hs (hs' (List.getElem?_eq_some_iff.1 hk).1)

theorem sites_nodup (h : Nested root program t) : t.sites.Nodup := by
  induction h with
  | root => exact List.nodup_nil
  | part h hk hb ih => exact ih
  | body h hq hk hs ih => exact List.nodup_cons.2 ⟨hs, ih⟩
  | bodyNode h hq hk ih => exact ih

/-- A body that is being walked is that of a function of a block that is being typed. -/
theorem block_of_mem_sites {site : Path} (h : Nested root program t) (hm : site ∈ t.sites) :
    ∃ k q, site = k :: q ∧ q ∈ t.paths := by
  induction h with
  | root => cases hm
  | part h hk hb ih =>
    obtain ⟨k, q, rfl, hq⟩ := ih hm
    exact ⟨k, q, rfl, .tail _ hq⟩
  | body h hq hk hs ih =>
    rw [Trail.sites_body] at hm
    rw [Trail.paths_body]
    rcases List.mem_cons.1 hm with rfl | hm
    · exact ⟨_, _, rfl, Trail.mem_paths.2 ⟨_, _, hq⟩⟩
    · exact ih hm
  | bodyNode h hq hk ih =>
    obtain ⟨k, q, rfl, hq⟩ := ih hm
    exact ⟨k, q, rfl, .tail _ hq⟩

/-- While a node is being typed, the bodies of its functions are walked inside it only. -/
theorem not_mem_sites {q : Path} {e : Expr} {k : Nat} {env : Env} (h : Nested root program (⟨.node q e, env⟩ :: t)) :
    k :: q ∉ t.sites := by
  intro hm
  cases t with
  | nil => cases hm
  | cons entry t =>
    obtain ⟨k', q', heq, hq⟩ := h.tail.block_of_mem_sites hm
    obtain ⟨rfl, rfl⟩ := List.cons.inj heq
    exact (List.nodup_cons.1 h.paths_nodup).1 hq

theorem places_of_mem_sites {site : Path} (h : Nested root program t) (hm : site ∈ t.sites) :
    ∃ f, Places root program site f := by
  induction h with
  | root => cases hm
  | part h hk hb ih => exact ih hm
  | body h hq hk hs ih =>
    rcases List.mem_cons.1 hm with rfl | hm
    · exact ⟨_, _, _, _, _, _, rfl, h.mem_nodes hq, hk⟩
    · exact ih hm
  | bodyNode h hq hk ih => exact ih hm

theorem length_le (h : Nested root program t) : t.length ≤ 2 * program.nodeCount := by
  have bound : ∀ l : List Path, l.Nodup → (∀ p ∈ l, ∃ e, (p, e) ∈ nodes root program) →
      l.length ≤ program.nodeCount := by
    intro l hl hsub
    have hsub : l ⊆ (nodes root program).map Prod.fst := by
      intro p hp
      obtain ⟨e, he⟩ := hsub p hp
      exact List.mem_map.2 ⟨(p, e), he, rfl⟩
    simpa [length_nodes] using (List.subperm_of_subset hl hsub).length_le
  have hpaths := bound _ h.paths_nodup fun p hp => by
    obtain ⟨e, env, hm⟩ := Trail.mem_paths.1 hp
    exact ⟨e, h.mem_nodes hm⟩
  have hsites := bound _ h.sites_nodup fun site hs => by
    obtain ⟨f, hf⟩ := h.places_of_mem_sites hs
    exact ⟨f.body, hf.body_mem_nodes⟩
  rw [Trail.length_eq]
  omega

end Nested
end FrontEnd.Typing
