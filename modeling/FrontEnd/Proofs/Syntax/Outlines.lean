import FrontEnd.Proofs.Syntax.Headings
import FrontEnd.Proofs.Syntax.Nodes

/-!
# The headings of a tree dump

* `Expr.kind`, `Expr.content`, `Expr.subheads` : what a node's heading is of, what it shows, and what stands below it;
  `Expr.outline_eq` : they make up the outline of the node;
* `Expr.subtitles`, `Expr.headlines` : the headings that a node brings with it, its own and those of its functions or of
  its sections; `Expr.headings_outline` : the headings of an outline are those that its nodes bring;
* `Expr.texts` : what headings show of a program word for word; `Expr.legible_of_oneLine` : where no line ends in that,
  every heading is on one line.
-/

namespace FrontEnd.Expr
variable {n : Notes} {p : Path} {e : Expr}

/-! ## A node and what stands below it -/

/-- The kind of heading that a node has. -/
def kind : Expr → HeadingKind
  | literal _ value => .literal value.ty
  | name .. => .name
  | unary .. => .unary
  | binary .. => .binary
  | letIn .. => .letIn
  | ifThen .. | ifElse .. => .branch
  | whileLoop .. => .whileLoop
  | forLoop .. => .forLoop
  | block .. => .block
  | call .. => .call
  | funDecl .. => .funDecl

/-- What the heading of a node shows of the node itself. -/
def content : Expr → Option Text
  | literal _ value => value.content
  | name _ id | letIn _ id _ | call _ id _ | funDecl _ id => some id
  | unary _ op _ | binary _ op _ _ => some op.spelling
  | ifThen .. | ifElse .. | whileLoop .. | forLoop .. | block .. => none

/-- The outlines that stand below the heading of a node at `p`. -/
def subheads (n : Notes) (p : Path) : Expr → List Outline
  | literal .. | name .. | funDecl .. => []
  | unary _ _ operand => [operand.outline n (0 :: p)]
  | binary _ _ lhs rhs => [lhs.outline n (0 :: p), rhs.outline n (1 :: p)]
  | letIn _ _ value => [value.outline n (0 :: p)]
  | ifThen _ test body => [.item "Cond:" [test.outline n (0 :: p)], .item "Then:" [body.outline n (1 :: p)]]
  | ifElse _ test body orelse =>
    [.item "Cond:" [test.outline n (0 :: p)], .item "Then:" [body.outline n (1 :: p)],
      .item "Else:" [orelse.outline n (2 :: p)]]
  | whileLoop _ test body => [.item "Cond:" [test.outline n (0 :: p)], .item "Body:" [body.outline n (1 :: p)]]
  | forLoop _ varLoc var start test step body =>
    [.item "Init:" [(letIn varLoc var start).outline n (0 :: p)], .item "Cond:" [test.outline n (1 :: p)],
      .item "Step:" [step.outline n (2 :: p)], .item "Body:" [body.outline n (3 :: p)]]
  | block _ functions statements =>
    functionOutlines n p 0 functions ++ outlines n p functions.length statements
  | call _ _ args => outlines n p 0 args

theorem outline_eq (n : Notes) (p : Path) (e : Expr) :
    e.outline n p = .item (n.annotate p (e.kind.heading e.content)) (e.subheads n p) := by
  cases e with
  | literal _ value => rw [outline, value.heading_eq]; rfl
  | _ => rfl

/-! ## Headings node by node -/

/-- The headings of some functions, the first of them having its body at position `i` below `p`. -/
def functionHeadings (n : Notes) (p : Path) (i : Nat) : List Function → List Text
  | [] => []
  | f :: fs => f.signature.heading (n.returnOf (i :: p) f.signature) :: functionHeadings n p (i + 1) fs

/-- The headings between that of a node at `p` and those of its parts. -/
def subtitles (n : Notes) (p : Path) : Expr → List Text
  | ifThen .. => ["Cond:", "Then:"]
  | ifElse .. => ["Cond:", "Then:", "Else:"]
  | whileLoop .. => ["Cond:", "Body:"]
  | forLoop .. => ["Init:", "Cond:", "Step:", "Body:"]
  | block _ functions _ => functionHeadings n p 0 functions
  | literal .. | name .. | unary .. | binary .. | letIn .. | call .. | funDecl .. => []

/-- The headings that a node brings with it. -/
def headlines (n : Notes) (node : Path × Expr) : List Text :=
  n.annotate node.1 (node.2.kind.heading node.2.content) :: node.2.subtitles n node.1

theorem outlines_append (n : Notes) (p : Path) (es fs : List Expr) (i : Nat) :
    outlines n p i (es ++ fs) = outlines n p i es ++ outlines n p (i + es.length) fs := by
  induction es generalizing i with
  | nil => rfl
  | cons e es ih =>
    rw [List.cons_append, outlines, ih, outlines, List.cons_append, List.length_cons, Nat.add_right_comm, Nat.add_assoc]

/-- An outline with a heading of its own over each of some outlines. -/
def sections (headings : List Text) (os : List Outline) : List Outline := List.zipWith (.item · [·]) headings os

theorem functionOutlines_eq (n : Notes) (p : Path) (fs : List Function) (i : Nat) :
    functionOutlines n p i fs = sections (functionHeadings n p i fs) (outlines n p i (fs.map (·.body))) := by
  induction fs generalizing i with
  | nil => rfl
  | cons f fs ih =>
    obtain ⟨signature, body⟩ := f
    rw [functionOutlines, ih]
    rfl

theorem length_functionHeadings (n : Notes) (p : Path) (fs : List Function) (i : Nat) :
    (functionHeadings n p i fs).length = fs.length := by
  induction fs generalizing i with
  | nil => rfl
  | cons f fs ih => rw [functionHeadings, List.length_cons, ih, List.length_cons]

theorem length_outlines (n : Notes) (p : Path) (es : List Expr) (i : Nat) : (outlines n p i es).length = es.length := by
  induction es generalizing i with
  | nil => rfl
  | cons e es ih => rw [outlines, List.length_cons, ih, List.length_cons]

section
open Outline

theorem headings_sections (hs : List Text) (os : List Outline) (h : hs.length = os.length) :
    (headingsBelow (sections hs os)).Perm (hs ++ headingsBelow os) := by
  induction hs generalizing os with
  | nil =>
    rw [List.eq_nil_of_length_eq_zero h.symm]
    exact .refl _
  | cons heading hs ih =>
    cases os with
    | nil => cases h
    | cons o os =>
      have hrest := ih os (Nat.succ.inj h)
      have hfront : headingsBelow (sections (heading :: hs) (o :: os)) =
          heading :: (o.headings ++ headingsBelow (sections hs os)) := by
        simp [sections, headingsBelow, headings]
      rw [hfront, headingsBelow, List.cons_append]
      refine .cons _ ((hrest.append_left _).trans ?_)
      rw [← List.append_assoc, ← List.append_assoc]
      exact List.perm_append_comm.append_right _

/-- Below the heading of a node are its subtitles and the headings of its parts. -/
theorem headings_subheads (n : Notes) (p : Path) (e : Expr) :
    (headingsBelow (e.subheads n p)).Perm (e.subtitles n p ++ headingsBelow (outlines n p 0 e.children)) := by
  cases e with
  | literal | name | funDecl | unary | binary | letIn | call => exact .refl _
  | ifThen _ test body => exact headings_sections ["Cond:", "Then:"] (outlines n p 0 [test, body]) rfl
  | ifElse _ test body orelse =>
    exact headings_sections ["Cond:", "Then:", "Else:"] (outlines n p 0 [test, body, orelse]) rfl
  | whileLoop _ test body => exact headings_sections ["Cond:", "Body:"] (outlines n p 0 [test, body]) rfl
  | forLoop _ varLoc var start test step body =>
    exact headings_sections ["Init:", "Cond:", "Step:", "Body:"]
      (outlines n p 0 [letIn varLoc var start, test, step, body]) rfl
  | block _ functions statements =>
    have hlength : (functionHeadings n p 0 functions).length =
        (outlines n p 0 (functions.map (·.body))).length := by
      rw [length_functionHeadings, length_outlines, List.length_map]
    rw [subheads, subtitles, children, outlines_append, headingsBelow_append, headingsBelow_append, List.length_map,
      Nat.zero_add, ← List.append_assoc, functionOutlines_eq]
    exact (headings_sections _ _ hlength).append_right _

theorem headings_outlines {es : List Expr} {i : Nat}
    (h : ∀ part ∈ es, ∀ q, (part.outline n q).headings.Perm ((nodes q part).flatMap (headlines n))) :
    (headingsBelow (outlines n p i es)).Perm ((nodesOf p i es).flatMap (headlines n)) := by
  induction es generalizing i with
  | nil => rw [outlines, nodesOf, headingsBelow, List.flatMap_nil]
  | cons e es ih =>
    rw [outlines, nodesOf, headingsBelow, List.flatMap_append]
    exact (h e List.mem_cons_self _).append (ih fun part hp => h part (.tail _ hp))

/-- The headings of an outline are those that its nodes bring. -/
theorem headings_outline (n : Notes) (p : Path) (e : Expr) :
    (e.outline n p).headings.Perm ((nodes p e).flatMap (headlines n)) := by
  induction hc : e.nodeCount using Nat.strongRecOn generalizing p e with
  | ind c ih =>
    rw [outline_eq, headings, nodes, List.flatMap_cons, headlines, List.cons_append]
    refine .cons _ ((headings_subheads n p e).trans ((headings_outlines ?_).append_left _))
    intro part hp q
    obtain ⟨k, hk⟩ := List.mem_iff_getElem?.1 hp
    exact ih _ (hc ▸ nodeCount_lt_of_mem_children hk) q part rfl

end

/-! ## Headings on one line -/

/-- What the headings that a node brings show of the program word for word: names, characters and strings. -/
def texts : Expr → List Text
  | literal _ value => value.texts
  | e => e.names

theorem oneLine_content (h : ∀ t ∈ e.texts, '\n' ∉ t) : ∀ c ∈ e.content, '\n' ∉ c := by
  cases e with
  | literal => exact Literal.oneLine_content h
  | name | letIn | call | funDecl =>
    rintro c ⟨⟩
    exact h _ List.mem_cons_self
  | unary _ op _ | binary _ op _ _ =>
    rintro c ⟨⟩
    exact op.oneLine_spelling
  | ifThen | ifElse | whileLoop | forLoop | block => rintro c ⟨⟩

theorem plain_functionHeadings {fs : List Function} {i : Nat}
    (h : ∀ f ∈ fs, '\n' ∉ f.signature.name ∧ ∀ param ∈ f.signature.params, '\n' ∉ param.1) :
    ∀ heading ∈ functionHeadings n p i fs, Outline.Plain heading := by
  induction fs generalizing i with
  | nil => exact List.forall_mem_nil _
  | cons f fs ih =>
    obtain ⟨⟨hname, hparams⟩, hrest⟩ := List.forall_mem_cons.1 h
    have hcontent := Signature.oneLine_content hname hparams (n.returnOf (i :: p) f.signature)
    have hplain := HeadingKind.function.plain_heading_append (fun c hc => Option.some.inj hc ▸ hcontent)
      (List.not_mem_nil (a := '\n'))
    rw [List.append_nil, ← Signature.heading_eq] at hplain
    exact List.forall_mem_cons.2 ⟨hplain, ih hrest⟩

theorem plain_subtitles (h : ∀ t ∈ e.texts, '\n' ∉ t) : ∀ heading ∈ e.subtitles n p, Outline.Plain heading := by
  have hlabels : ∀ label ∈ (["Init:", "Cond:", "Then:", "Else:", "Step:", "Body:"] : List Text),
      '\n' ∉ label ∧ label.head? ≠ some ' ' := by decide
  have hlabel : ∀ label ∈ (["Init:", "Cond:", "Then:", "Else:", "Step:", "Body:"] : List Text), Outline.Plain label :=
    fun label hm => ⟨(hlabels label hm).1, (hlabels label hm).2⟩
  cases e with
  | ifThen | ifElse | whileLoop | forLoop =>
    simp only [subtitles, List.forall_mem_cons, List.not_mem_nil, false_implies, implies_true, and_true]
    simp only [List.forall_mem_cons] at hlabel
    simp only [hlabel, and_self]
  | block _ functions _ =>
    refine plain_functionHeadings fun f hf => ?_
    have hnames := fun t ht => h t (List.mem_flatMap.2 ⟨f, hf, ht⟩)
    exact ⟨hnames _ List.mem_cons_self, fun param hm => hnames _ (.tail _ (List.mem_map_of_mem hm))⟩
  | literal | name | unary | binary | letIn | call | funDecl => exact List.forall_mem_nil _

/-- The outline of a tree is legible if no line ends in a name, a character or a string of the tree. -/
theorem legible_of_oneLine (n : Notes) (p : Path) (e : Expr)
    (h : ∀ node ∈ nodes p e, ∀ t ∈ node.2.texts, '\n' ∉ t) : (e.outline n p).Legible := by
  refine Outline.legible_of_headings _ fun heading hm => ?_
  obtain ⟨node, hnode, hm⟩ := List.mem_flatMap.1 ((headings_outline n p e).mem_iff.1 hm)
  rcases List.mem_cons.1 hm with rfl | hm
  · rw [Notes.annotate_eq]
    exact node.2.kind.plain_heading_append (oneLine_content (h node hnode)) (oneLine_typeSuffix _)
  · exact plain_subtitles (h node hnode) heading hm

end FrontEnd.Expr
