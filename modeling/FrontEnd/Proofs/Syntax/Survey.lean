import FrontEnd.Proofs.Syntax.Outlines
import FrontEnd.Syntax.Survey
import Mathlib.Algebra.GroupWithZero.Nat

/-!
# What the walks through a tree see

* `Expr.survey_eq_children`, `Expr.survey_counts` : a walk counts the root and then walks through its parts, and comes
  back to the depth that it started from;
* `Expr.length_le_height`, `Expr.exists_deepest` : the paths of a tree go as far down as its height says;
* `Expr.extraLines` : the lines of a dump that a node has besides its own;
* `Expr.geometry_and_dump` : the size of a tree is the number of its nodes and the depth of the deepest of them, and its
  dump has a line for each of them and their extra lines.
-/

namespace FrontEnd.Expr
variable {p : Path} {e part : Expr} {es : List Expr}

/-! ## Counting -/

theorem surveyAll_append (es fs : List Expr) (s : Survey) :
    surveyAll (es ++ fs) s = surveyAll fs (surveyAll es s) := by
  induction es generalizing s with
  | nil => rfl
  | cons e es ih => exact ih _

theorem surveyBodies_eq_surveyAll (fs : List Function) (s : Survey) :
    surveyBodies fs s = surveyAll (fs.map (·.body)) s := by
  induction fs generalizing s with
  | nil => rfl
  | cons f fs ih =>
    cases f
    exact ih _

/-- A walk counts the root and then walks through its parts. -/
theorem survey_eq_children (e : Expr) (s : Survey) : e.survey s = surveyAll e.children s.count := by
  cases e with
  | block _ functions statements => rw [survey, children, surveyAll_append, surveyBodies_eq_surveyAll]
  | _ => rfl

/-- What a walk through a tree makes of its state. -/
def Counts (e : Expr) : Prop :=
  ∀ s : Survey, e.survey s = ⟨s.nodes + e.nodeCount, s.depth, max s.maxDepth (s.depth + e.height)⟩

theorem surveyAll_eq (h : ∀ part ∈ es, part.Counts) (s : Survey) (hs : s.depth ≤ s.maxDepth) :
    surveyAll es s = ⟨s.nodes + totalCount es, s.depth, max s.maxDepth (s.depth + greatestDepth es)⟩ := by
  induction es generalizing s with
  | nil =>
    rw [surveyAll, totalCount, greatestDepth, Nat.add_zero, Nat.add_zero, Nat.max_eq_left hs]
  | cons e es ih =>
    have hbelow : s.below e.survey =
        ⟨s.nodes + e.nodeCount, s.depth, max s.maxDepth (s.depth + 1 + e.height)⟩ := by
      rw [Survey.below, h e List.mem_cons_self]
      rfl
    have hdepth : s.depth ≤ max s.maxDepth (s.depth + 1 + e.height) := Nat.le_trans hs (Nat.le_max_left ..)
    rw [surveyAll, hbelow, ih (fun part hp => h part (.tail _ hp)) ⟨_, _, _⟩ hdepth, Survey.mk.injEq]
    refine ⟨by rw [totalCount, Nat.add_assoc], rfl, ?_⟩
    dsimp only
    rw [greatestDepth]
    omega

theorem survey_counts (e : Expr) : e.Counts := by
  induction hc : e.nodeCount using Nat.strongRecOn generalizing e with
  | ind c ih =>
    intro s
    have hparts : ∀ part ∈ e.children, part.Counts := by
      intro part hp
      obtain ⟨k, hk⟩ := List.mem_iff_getElem?.1 hp
      exact ih _ (hc ▸ nodeCount_lt_of_mem_children hk) part rfl
    rw [survey_eq_children, surveyAll_eq hparts _ (Nat.le_max_right ..), nodeCount_eq_children, height_eq_children,
      Survey.count, Survey.mk.injEq]
    refine ⟨Nat.add_assoc .., rfl, ?_⟩
    dsimp only
    omega

theorem geometry_eq (e : Expr) : e.geometry = ⟨e.nodeCount, e.height⟩ := by
  rw [geometry, survey_counts e]
  simp

/-! ## Depths -/

theorem height_lt_greatestDepth (h : part ∈ es) : part.height < greatestDepth es := by
  induction es with
  | nil => cases h
  | cons e es ih =>
    rw [greatestDepth]
    rcases List.mem_cons.1 h with rfl | h
    · exact Nat.lt_of_lt_of_le (Nat.lt_succ_self _) (Nat.le_max_left ..)
    · exact Nat.lt_of_lt_of_le (ih h) (Nat.le_max_right ..)

theorem exists_greatestDepth (h : es ≠ []) : ∃ part ∈ es, greatestDepth es = part.height + 1 := by
  induction es with
  | nil => exact absurd rfl h
  | cons e es ih =>
    rw [greatestDepth]
    rcases Nat.le_total (greatestDepth es) (e.height + 1) with hle | hle
    · exact ⟨e, List.mem_cons_self, Nat.max_eq_left hle⟩
    · cases es with
      | nil => exact absurd hle (by simp [greatestDepth])
      | cons f fs =>
        obtain ⟨part, hp, heq⟩ := ih (List.cons_ne_nil _ _)
        exact ⟨part, .tail _ hp, by rw [Nat.max_eq_right hle, heq]⟩

/-- No node is deeper than the height of the tree. -/
theorem length_le_height {n : Path × Expr} (h : n ∈ nodes p e) : n.1.length ≤ p.length + e.height := by
  induction hc : e.nodeCount using Nat.strongRecOn generalizing p e with
  | ind c ih =>
    rcases mem_nodes.1 h with rfl | ⟨k, part, hk, h⟩
    · exact Nat.le_add_right ..
    · have hpart := ih _ (hc ▸ nodeCount_lt_of_mem_children hk) h rfl
      have hheight := height_lt_greatestDepth (List.mem_of_getElem? hk)
      rw [height_eq_children]
      rw [List.length_cons] at hpart
      omega

/-- Some node is as deep as the height of the tree. -/
theorem exists_deepest (p : Path) (e : Expr) : ∃ n ∈ nodes p e, n.1.length = p.length + e.height := by
  induction hc : e.nodeCount using Nat.strongRecOn generalizing p e with
  | ind c ih =>
    by_cases hleaf : e.children = []
    · refine ⟨(p, e), self_mem_nodes p e, ?_⟩
      rw [height_eq_children, hleaf, greatestDepth, Nat.add_zero]
    · obtain ⟨part, hp, hdepth⟩ := exists_greatestDepth hleaf
      obtain ⟨k, hk⟩ := List.mem_iff_getElem?.1 hp
      obtain ⟨n, hn, hlength⟩ := ih _ (hc ▸ nodeCount_lt_of_mem_children hk) (k :: p) part rfl
      refine ⟨n, mem_nodes.2 (.inr ⟨k, part, hk, hn⟩), ?_⟩
      rw [hlength, e.height_eq_children, hdepth, List.length_cons]
      omega

/-! ## Lines -/

/-- The lines that a node has besides its own: one for each function of a block, and one for each section of a branch or
a loop. -/
def extraLines : Expr → Nat
  | block _ functions _ => functions.length
  | whileLoop .. => 2
  | forLoop .. => 4
  | ifThen .. => 2
  | ifElse .. => 3
  | literal .. | name .. | unary .. | binary .. | letIn .. | call .. | funDecl .. => 0

theorem length_subtitles (notes : Notes) (p : Path) (e : Expr) : (e.subtitles notes p).length = e.extraLines := by
  cases e with
  | block _ functions _ => exact length_functionHeadings notes p functions 0
  | _ => rfl

theorem length_lines_outline (notes : Notes) (p : Path) (e : Expr) (d : Nat) :
    ((e.outline notes p).lines d).length = (nodes p e).length + ((nodes p e).map (·.2.extraLines)).sum := by
  rw [Outline.length_lines, (headings_outline notes p e).length_eq]
  induction nodes p e with
  | nil => rfl
  | cons n ns ih =>
    rw [List.flatMap_cons, List.length_append, ih, headlines, List.length_cons, length_subtitles, List.map_cons,
      List.sum_cons, List.length_cons]
    omega

/-- The size of a tree is the number of its nodes and the depth of the deepest of them below the root, the walk comes
back to where it started, and where no line ends in a name, a character or a string, the dump has a line for each node
and the extra lines of each. -/
theorem geometry_and_dump (e : Expr) (p : Path) :
    e.geometry.nodes = (nodes p e).length ∧
      (∀ n ∈ nodes p e, n.1.length ≤ p.length + e.geometry.maxDepth) ∧
      (∃ n ∈ nodes p e, n.1.length = p.length + e.geometry.maxDepth) ∧
      (∀ s, (e.survey s).depth = s.depth) ∧
      ((∀ n ∈ nodes p e, ∀ t ∈ n.2.texts, '\n' ∉ t) → ∀ notes : Notes, ∃ lines : List Text,
        e.dump notes p = Text.ofLines lines ∧ (∀ line ∈ lines, '\n' ∉ line) ∧
          lines.length = e.geometry.nodes + ((nodes p e).map (·.2.extraLines)).sum) := by
  rw [geometry_eq]
  have hback : ∀ s, (e.survey s).depth = s.depth := fun s => by rw [survey_counts e]
  refine ⟨(length_nodes p e).symm, fun n => length_le_height, exists_deepest p e, hback, fun htexts notes => ?_⟩
  refine ⟨_, rfl, Outline.lines_oneLine _ (legible_of_oneLine notes p e htexts), ?_⟩
  rw [length_lines_outline, length_nodes]

/-- A function that nothing declares, branches and loops. -/
theorem geometry_and_dump_undeclared :
    let leaf : Expr := literal {} (.int 0)
    let body : Expr := forLoop {} {} "i" leaf leaf leaf (ifThen {} leaf (whileLoop {} leaf (call {} "f" [])))
    let e : Expr := block {} [⟨⟨"f", {}, [("x", .int)], .any⟩, body⟩] [ifElse {} leaf (name {} "y") leaf]
    e.geometry = ⟨15, 4⟩ ∧ (∀ n ∈ nodes [0] e, ∀ t ∈ n.2.texts, '\n' ∉ t) ∧
      ∃ lines : List Text, e.dump {} [0] = Text.ofLines lines ∧ (∀ line ∈ lines, '\n' ∉ line) ∧ lines.length = 27 := by
  intro leaf body e
  have htexts : ∀ n ∈ nodes [0] e, ∀ t ∈ n.2.texts, '\n' ∉ t := by
    simp [e, body, leaf, nodes, nodesOf, children, texts, names, Literal.texts]
  obtain ⟨-, -, -, -, hdump⟩ := geometry_and_dump e [0]
  obtain ⟨lines, htext, hline, hlength⟩ := hdump htexts {}
  have hgeometry : e.geometry = ⟨15, 4⟩ := by
    rw [geometry_eq]
    decide
  refine ⟨hgeometry, htexts, lines, htext, hline, ?_⟩
  rw [hlength, hgeometry]
  simp [e, body, leaf, nodes, nodesOf, children, extraLines]

end FrontEnd.Expr
