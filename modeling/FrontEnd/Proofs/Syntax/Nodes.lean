import FrontEnd.Notes
import FrontEnd.Proofs.Syntax.WellFormed

/-!
# The nodes of a tree and their paths

* `Expr.nodes` : all nodes of a tree with their paths, and `Expr.nodes_unique` : a path belongs to one node only;
* `Expr.names` : the names that a node holds;
* `Expr.bodyCount` : how many of a node's parts are bodies of functions; they come first;
* `Expr.Places` : where the bodies of a program's functions are, and `Places.unique` : a path is that of at most one
  function's body;
* `Expr.Annotated` : every function of a tree states its return type.
-/

namespace FrontEnd.Expr

mutual

/-- The nodes of the tree whose root is at `p`, with their paths. -/
def nodes (p : Path) (e : Expr) : List (Path × Expr) := (p, e) :: nodesOf p 0 e.children
termination_by 2 * e.nodeCount
decreasing_by rw [nodeCount_eq_children e]; omega

/-- The nodes of several trees, the parts of the node at `p` from position `i` on. -/
def nodesOf (p : Path) (i : Nat) : List Expr → List (Path × Expr)
  | [] => []
  | e :: es => nodes (i :: p) e ++ nodesOf p (i + 1) es
termination_by es => 2 * totalCount es + 1
decreasing_by
  · simp only [totalCount]; omega
  · simp only [totalCount]; have := e.nodeCount_pos; omega

end

/-- The number of parts of a node that are bodies of functions. -/
def bodyCount : Expr → Nat
  | block _ functions _ => functions.length
  | _ => 0

/-- The names that a node holds; a block holds those of its functions and of their parameters. The name that a loop
counts with is in its first part. -/
def names : Expr → List Text
  | name _ id | letIn _ id _ | call _ id _ | funDecl _ id => [id]
  | block _ functions _ => functions.flatMap fun f => f.signature.name :: f.signature.params.map (·.1)
  | literal .. | unary .. | binary .. | ifThen .. | ifElse .. | whileLoop .. | forLoop .. => []

theorem self_mem_nodes (p : Path) (e : Expr) : (p, e) ∈ nodes p e := by
  rw [nodes]
  exact List.mem_cons_self

theorem mem_nodesOf {p : Path} {n : Path × Expr} (es : List Expr) (i : Nat) :
    n ∈ nodesOf p i es ↔ ∃ k part, es[k]? = some part ∧ n ∈ nodes ((i + k) :: p) part := by
  induction es generalizing i with
  | nil => simp [nodesOf]
  | cons e es ih =>
    rw [nodesOf, List.mem_append, ih]
    constructor
    · rintro (h | ⟨k, part, hk, h⟩)
      · exact ⟨0, e, rfl, h⟩
      · exact ⟨k + 1, part, hk, by rwa [show i + (k + 1) = i + 1 + k by omega]⟩
    · rintro ⟨k, part, hk, h⟩
      cases k with
      | zero =>
        obtain rfl : e = part := by simpa using hk
        exact .inl h
      | succ k => exact .inr ⟨k, part, hk, by rwa [show i + 1 + k = i + (k + 1) by omega]⟩

theorem nodesOf_append {p : Path} {es fs : List Expr} {i : Nat} :
    nodesOf p i (es ++ fs) = nodesOf p i es ++ nodesOf p (i + es.length) fs := by
  induction es generalizing i with
  | nil => simp [nodesOf]
  | cons e es ih =>
    rw [List.cons_append, nodesOf, ih, nodesOf, List.append_assoc, List.length_cons, Nat.add_right_comm, Nat.add_assoc]

theorem mem_nodes {p : Path} {e : Expr} {n : Path × Expr} :
    n ∈ nodes p e ↔ n = (p, e) ∨ ∃ k part, e.children[k]? = some part ∧ n ∈ nodes (k :: p) part := by
  rw [nodes, List.mem_cons, mem_nodesOf]
  simp only [Nat.zero_add]

/-! ### What holds of all nodes -/

section
variable {P : Path × Expr → Prop} {p : Path} {e : Expr} {es : List Expr} {i : Nat}

theorem all_nodes (h : P (p, e)) (hs : ∀ n ∈ nodesOf p 0 e.children, P n) : ∀ n ∈ nodes p e, P n := by
  rw [nodes]
  exact List.forall_mem_cons.2 ⟨h, hs⟩

theorem all_nil : ∀ n ∈ nodesOf p i [], P n := by
  simp [nodesOf]

theorem all_cons (h : ∀ n ∈ nodes (i :: p) e, P n) (hs : ∀ n ∈ nodesOf p (i + 1) es, P n) :
    ∀ n ∈ nodesOf p i (e :: es), P n := by
  rw [nodesOf]
  exact List.forall_mem_append.2 ⟨h, hs⟩

theorem all_parts (h : ∀ e ∈ es, ∀ q, ∀ n ∈ nodes q e, P n) : ∀ n ∈ nodesOf p i es, P n := by
  intro n hn
  obtain ⟨k, part, hk, hn⟩ := (mem_nodesOf es i).1 hn
  exact h part (List.mem_of_getElem? hk) _ n hn

end

theorem nodeCount_lt_of_mem_children {e part : Expr} {k : Nat} (h : e.children[k]? = some part) :
    part.nodeCount < e.nodeCount := by
  have total : ∀ (es : List Expr) (k : Nat), es[k]? = some part → part.nodeCount ≤ totalCount es := by
    intro es
    induction es with
    | nil => intro k h; simp at h
    | cons e es ih =>
      intro k h
      rw [totalCount]
      cases k with
      | zero =>
        obtain rfl : e = part := by simpa using h
        omega
      | succ k => exact Nat.le_add_left_of_le (ih k h)
  have := total _ _ h
  rw [nodeCount_eq_children e]
  omega

/-- The nodes below a node of a tree are nodes of the tree. -/
theorem nodes_trans {p q : Path} {e e' : Expr} {n : Path × Expr} (h : (q, e') ∈ nodes p e) (hn : n ∈ nodes q e') :
    n ∈ nodes p e := by
  induction hc : e.nodeCount using Nat.strongRecOn generalizing p e with
  | ind c ih =>
    rcases mem_nodes.1 h with heq | ⟨j, part, hj, h⟩
    · obtain ⟨rfl, rfl⟩ := Prod.mk.inj heq
      exact hn
    · exact mem_nodes.2 (.inr ⟨j, part, hj, ih _ (hc ▸ nodeCount_lt_of_mem_children hj) h rfl⟩)

/-- The parts of a node of a tree are nodes of the tree. -/
theorem part_mem_nodes {p q : Path} {e e' part : Expr} {k : Nat} (h : (q, e') ∈ nodes p e)
    (hk : e'.children[k]? = some part) : (k :: q, part) ∈ nodes p e :=
  nodes_trans h (mem_nodes.2 (.inr ⟨k, part, hk, self_mem_nodes _ _⟩))

/-- The path of a node goes on from that of the root. -/
theorem suffix_of_mem_nodes {p q : Path} {e e' : Expr} (h : (q, e') ∈ nodes p e) : p <:+ q := by
  induction hn : e.nodeCount using Nat.strongRecOn generalizing p e with
  | ind n ih =>
    rcases mem_nodes.1 h with heq | ⟨j, c, hj, h⟩
    · obtain ⟨rfl, rfl⟩ := Prod.mk.inj heq
      exact List.suffix_refl _
    · exact (List.suffix_cons j p).trans (ih _ (hn ▸ nodeCount_lt_of_mem_children hj) h rfl)

theorem not_cons_suffix {i : Nat} {p : Path} : ¬ i :: p <:+ p := by
  intro h
  have := h.length_le
  simp only [List.length_cons] at this
  omega

theorem nodes_unique {p q : Path} {e e₁ e₂ : Expr} (h₁ : (q, e₁) ∈ nodes p e) (h₂ : (q, e₂) ∈ nodes p e) :
    e₁ = e₂ := by
  induction hn : e.nodeCount using Nat.strongRecOn generalizing p e with
  | ind n ih =>
    rcases mem_nodes.1 h₁ with heq₁ | ⟨i, c₁, hi, hc₁⟩
    · obtain ⟨rfl, rfl⟩ := Prod.mk.inj heq₁
      rcases mem_nodes.1 h₂ with heq₂ | ⟨j, c₂, hj, hc₂⟩
      · exact (Prod.mk.inj heq₂).2.symm
      · exact absurd (suffix_of_mem_nodes hc₂) not_cons_suffix
    · rcases mem_nodes.1 h₂ with heq₂ | ⟨j, c₂, hj, hc₂⟩
      · obtain ⟨rfl, rfl⟩ := Prod.mk.inj heq₂
        exact absurd (suffix_of_mem_nodes hc₁) not_cons_suffix
      · have hij : i :: p = j :: p :=
          (List.suffix_of_suffix_length_le (suffix_of_mem_nodes hc₁) (suffix_of_mem_nodes hc₂) (by simp)).eq_of_length
            (by simp)
        obtain rfl : i = j := (List.cons.inj hij).1
        obtain rfl : c₁ = c₂ := Option.some.inj (hi.symm.trans hj)
        exact ih _ (hn ▸ nodeCount_lt_of_mem_children hi) hc₁ hc₂ rfl

theorem length_nodesOf {p : Path} {es : List Expr} {i : Nat}
    (h : ∀ part ∈ es, ∀ q, (nodes q part).length = part.nodeCount) : (nodesOf p i es).length = totalCount es := by
  induction es generalizing i with
  | nil =>
    rw [nodesOf]
    rfl
  | cons e es ih =>
    rw [nodesOf, List.length_append, h e List.mem_cons_self, ih fun part hp => h part (.tail _ hp), totalCount]

theorem length_nodes (p : Path) (e : Expr) : (nodes p e).length = e.nodeCount := by
  induction hn : e.nodeCount using Nat.strongRecOn generalizing p e with
  | ind n ih =>
    rw [nodes, List.length_cons, length_nodesOf, ← hn, nodeCount_eq_children, Nat.add_comm]
    intro part hp q
    obtain ⟨k, hk⟩ := List.mem_iff_getElem?.1 hp
    exact ih _ (hn ▸ nodeCount_lt_of_mem_children hk) q part rfl

/-- A declaration has no nodes below it. -/
theorem eq_of_mem_nodes_declaration {p : Path} {e : Expr} {n : Path × Expr} (hd : e.isDeclaration)
    (hn : n ∈ nodes p e) : n = (p, e) := by
  cases e <;> simp only [isDeclaration, Bool.false_eq_true] at hd
  rcases mem_nodes.1 hn with rfl | ⟨_, _, hk, _⟩
  · rfl
  · simp [children] at hk

/-- The nodes of a well-formed tree are well formed, but for declarations. -/
theorem WellFormed.of_mem_nodes {p q : Path} {e e' : Expr} (h : e.WellFormed) (hn : (q, e') ∈ nodes p e) :
    e'.isDeclaration ∨ e'.WellFormed := by
  induction hc : e.nodeCount using Nat.strongRecOn generalizing p e with
  | ind n ih =>
    rcases mem_nodes.1 hn with heq | ⟨k, part, hk, hn⟩
    · obtain ⟨rfl, rfl⟩ := Prod.mk.inj heq
      exact .inr h
    · cases hd : part.isDeclaration with
      | false =>
        exact ih _ (hc ▸ nodeCount_lt_of_mem_children hk) (h.of_mem_children (List.mem_of_getElem? hk) hd) hn rfl
      | true =>
        obtain ⟨rfl, rfl⟩ := Prod.mk.inj (eq_of_mem_nodes_declaration hd hn)
        exact .inl hd

/-! ## Functions -/

/-- The body of `f` is at `site` in the tree whose root is at `p`. -/
def Places (p : Path) (e : Expr) (site : Path) (f : Function) : Prop :=
  ∃ k q loc functions statements, site = k :: q ∧ (q, block loc functions statements) ∈ nodes p e ∧
    functions[k]? = some f

theorem Places.unique {p site : Path} {e : Expr} {f g : Function} (hf : Places p e site f) (hg : Places p e site g) :
    f = g := by
  obtain ⟨k, q, loc, functions, statements, rfl, hn, hk⟩ := hf
  obtain ⟨k', q', loc', functions', statements', heq, hn', hk'⟩ := hg
  obtain ⟨rfl, rfl⟩ := List.cons.inj heq
  obtain ⟨-, rfl, -⟩ := Expr.block.inj (nodes_unique hn hn')
  exact Option.some.inj (hk.symm.trans hk')

theorem children_of_functions {loc : Location} {functions : List Function} {statements : List Expr} {k : Nat}
    {f : Function} (h : functions[k]? = some f) : (block loc functions statements).children[k]? = some f.body := by
  have hk : k < functions.length := (List.getElem?_eq_some_iff.1 h).1
  rw [children, List.getElem?_append_left (by simpa using hk), List.getElem?_map, h]
  rfl

theorem children_of_statements {loc : Location} {functions : List Function}
    {statements : List Expr} {k : Nat} {e : Expr}
    (h : statements[k]? = some e) : (block loc functions statements).children[functions.length + k]? = some e := by
  rw [children, List.getElem?_append_right (by simp)]
  simpa using h

theorem Places.body_mem_nodes {p site : Path} {e : Expr} {f : Function} (h : Places p e site f) :
    (site, f.body) ∈ nodes p e := by
  obtain ⟨k, q, loc, functions, statements, rfl, hn, hk⟩ := h
  exact part_mem_nodes hn (children_of_functions hk)

theorem Places.wellFormed {p site : Path} {e : Expr} {f : Function} (h : Places p e site f) (he : e.WellFormed) :
    (∀ param ∈ f.signature.params, param.2 ≠ .any) ∧ f.body.WellFormed := by
  obtain ⟨k, q, loc, functions, statements, rfl, hn, hk⟩ := h
  have hm := List.mem_of_getElem? hk
  cases he.of_mem_nodes hn with
  | inl h => cases h
  | inr h =>
    cases h with
    | block hp hf _ _ => exact ⟨hp f hm, hf f hm⟩

/-- Every function of the tree states the type of its result. -/
def Annotated (e : Expr) : Prop := ∀ p site f, Places p e site f → f.signature.ret ≠ .any

end FrontEnd.Expr
