import FrontEnd.Proofs.Syntax.Outlines
import FrontEnd.Proofs.Typing.Settled

/-!
# What a dump says about a tree

* `Expr.Legible` : trees whose headings can be read back: without decimals, with names for names, and with no line
  feed in a value;
* `Expr.noted` : the types noted for the nodes of a tree, the root first and then those of its parts in order;
* `Expr.Coincides` : two annotated trees that are the same up to their places, with the return types that are settled;
* `Expr.dump_inj` : legible trees with the same dump coincide.
-/

namespace FrontEnd.Expr
variable {n n' : Notes} {p p' : Path}

/-! ## Legible trees -/

/-- Headings of all nodes and functions can be read back. -/
inductive Legible : Expr → Prop
  | literal {loc : Location} {value : Literal} (h : value.Legible) : Legible (literal loc value)
  | name {loc : Location} {id : Text} (h : IsName id) : Legible (name loc id)
  | unary {loc : Location} {op : Operator} {operand : Expr} (h : Legible operand) : Legible (unary loc op operand)
  | binary {loc : Location} {op : Operator} {lhs rhs : Expr} (hl : Legible lhs) (hr : Legible rhs) :
    Legible (binary loc op lhs rhs)
  | letIn {loc : Location} {id : Text} {value : Expr} (h : Legible value) (hid : IsName id) :
    Legible (letIn loc id value)
  | ifThen {loc : Location} {test body : Expr} (ht : Legible test) (hb : Legible body) :
    Legible (ifThen loc test body)
  | ifElse {loc : Location} {test body orelse : Expr} (ht : Legible test) (hb : Legible body)
    (he : Legible orelse) : Legible (ifElse loc test body orelse)
  | whileLoop {loc : Location} {test body : Expr} (ht : Legible test) (hb : Legible body) :
    Legible (whileLoop loc test body)
  | forLoop {loc varLoc : Location} {var : Text} {start test step body : Expr} (hvar : IsName var)
    (hs : Legible start) (ht : Legible test) (hi : Legible step) (hb : Legible body) :
    Legible (forLoop loc varLoc var start test step body)
  | block {loc : Location} {functions : List Function} {statements : List Expr}
    (hsig : ∀ f ∈ functions, f.signature.Legible) (hf : ∀ f ∈ functions, Legible f.body)
    (hs : ∀ e ∈ statements, Legible e) : Legible (block loc functions statements)
  | call {loc : Location} {callee : Text} {args : List Expr} (hid : IsName callee) (h : ∀ e ∈ args, Legible e) :
    Legible (call loc callee args)
  | funDecl {loc : Location} {id : Text} (h : IsName id) : Legible (funDecl loc id)

/-! ## Headings -/

theorem Legible.clear_content {e : Expr} (h : e.Legible) : ∀ c ∈ e.content, Clear c := by
  cases h with
  | literal h => exact Literal.clear_content h
  | name h | letIn _ h | call h | funDecl h =>
    rintro c ⟨⟩
    exact h.clear
  | unary | binary =>
    rintro c ⟨⟩
    exact Operator.clear_spelling _
  | ifThen | ifElse | whileLoop | forLoop | block => rintro c ⟨⟩

theorem Legible.oneLine {e : Expr} (h : e.Legible) : ∀ t ∈ e.texts, '\n' ∉ t := by
  cases h with
  | literal h => exact h.oneLine
  | name h | letIn _ h | call h | funDecl h => exact List.forall_mem_singleton.2 h.oneLine
  | block hsig _ _ =>
    intro t ht
    obtain ⟨f, hf, ht⟩ := List.mem_flatMap.1 ht
    rcases List.mem_cons.1 ht with rfl | ht
    · exact (hsig f hf).name.oneLine
    · obtain ⟨param, hparam, rfl⟩ := List.mem_map.1 ht
      exact ((hsig f hf).params param hparam).oneLine
  | unary | binary | ifThen | ifElse | whileLoop | forLoop => exact List.forall_mem_nil _

theorem Legible.parts {e : Expr} (h : e.Legible) : ∀ part ∈ e.children, part.Legible := by
  cases h with
  | literal | name | funDecl => exact List.forall_mem_nil _
  | unary h | letIn h _ => exact List.forall_mem_singleton.2 h
  | binary h₁ h₂ | ifThen h₁ h₂ | whileLoop h₁ h₂ => simp [children, h₁, h₂]
  | ifElse ht hb he => simp [children, ht, hb, he]
  | forLoop hvar hs ht hi hb => simp [children, Legible.letIn hs hvar, ht, hi, hb]
  | block _ hf hs => exact List.forall_mem_append.2 ⟨List.forall_mem_map.2 hf, hs⟩
  | call _ h => exact h

theorem Legible.part {e part : Expr} (h : e.Legible) (k : Nat) (hk : e.children[k]? = some part) : part.Legible :=
  h.parts part (List.mem_of_getElem? hk)

theorem Legible.signatures {loc : Location} {functions : List Function} {statements : List Expr}
    (h : (Expr.block loc functions statements).Legible) : ∀ f ∈ functions, f.signature.Legible := by
  cases h with
  | block hsig _ _ => exact hsig

theorem Legible.of_mem_nodes {e e' : Expr} {q : Path} (h : e.Legible) (hn : (q, e') ∈ nodes p e) : e'.Legible := by
  induction hc : e.nodeCount using Nat.strongRecOn generalizing p e with
  | ind c ih =>
    rcases mem_nodes.1 hn with heq | ⟨k, part, hk, hn⟩
    · obtain ⟨rfl, rfl⟩ := Prod.mk.inj heq
      exact h
    · exact ih _ (hc ▸ nodeCount_lt_of_mem_children hk) (h.part k hk) hn rfl

/-- The outlines of legible trees are legible. -/
theorem legible_outline (n : Notes) (p : Path) (e : Expr) (h : e.Legible) : (e.outline n p).Legible :=
  legible_of_oneLine n p e fun _ hn => (h.of_mem_nodes hn).oneLine

/-! ## What is read back -/

/-- The types noted for the nodes of a tree whose root is at `p`, the root first and then those of its parts. -/
def noted (n : Notes) (p : Path) (e : Expr) : List (Option Ty) := (nodes p e).map fun node => n.typeAt? node.1

/-- The types noted for the nodes of several trees, the parts of the node at `p` from position `i` on. -/
def notedOf (n : Notes) (p : Path) (i : Nat) (es : List Expr) : List (Option Ty) :=
  (nodesOf p i es).map fun node => n.typeAt? node.1

theorem noted_eq (n : Notes) (p : Path) (e : Expr) : noted n p e = n.typeAt? p :: notedOf n p 0 e.children := by
  rw [noted, nodes, List.map_cons, notedOf]

@[simp] theorem notedOf_nil (n : Notes) (p : Path) (i : Nat) : notedOf n p i [] = [] := by
  rw [notedOf, nodesOf, List.map_nil]

@[simp] theorem notedOf_cons (n : Notes) (p : Path) (i : Nat) (e : Expr) (es : List Expr) :
    notedOf n p i (e :: es) = noted n (i :: p) e ++ notedOf n p (i + 1) es := by
  rw [notedOf, nodesOf, List.map_append, noted, notedOf]

theorem notedOf_append (n : Notes) (p : Path) (i : Nat) (es fs : List Expr) :
    notedOf n p i (es ++ fs) = notedOf n p i es ++ notedOf n p (i + es.length) fs := by
  rw [notedOf, nodesOf_append, List.map_append, notedOf, notedOf]

/-- The trees are the same up to places, with the return types that the notes settle, and the same types are noted for
their nodes. -/
structure Coincides (n n' : Notes) (p p' : Path) (e e' : Expr) : Prop where
  tree : (e.settle n p).unlocated = (e'.settle n' p').unlocated
  types : e.noted n p = e'.noted n' p'

theorem Coincides.of_parts {e e' : Expr} (htree : (e.settle n p).unlocated = (e'.settle n' p').unlocated)
    (ht : n.typeAt? p = n'.typeAt? p') (hparts : notedOf n p 0 e.children = notedOf n' p' 0 e'.children) :
    Coincides n n' p p' e e' :=
  ⟨htree, by rw [noted_eq, noted_eq, ht, hparts]⟩

theorem head_inj {e e' : Expr} (he : e.Legible) (he' : e'.Legible) (h : e.outline n p = e'.outline n' p') :
    e.kind = e'.kind ∧ e.content = e'.content ∧ n.typeAt? p = n'.typeAt? p' ∧ e.subheads n p = e'.subheads n' p' := by
  rw [outline_eq, outline_eq] at h
  obtain ⟨hheading, hbelow⟩ := Outline.item.inj h
  obtain ⟨hk, hc, ht⟩ := Notes.annotate_inj he.clear_content he'.clear_content hheading
  exact ⟨hk, hc, ht, hbelow⟩

theorem head_part_inj {label label' : Text} {o o' : Outline} {os os' : List Outline}
    (h : Outline.item label [o] :: os = Outline.item label' [o'] :: os') : o = o' ∧ os = os' := by
  obtain ⟨hhead, hrest⟩ := List.cons.inj h
  exact ⟨(List.cons.inj (Outline.item.inj hhead).2).1, hrest⟩

/-- The heading of a function is none of a node. -/
theorem functionHeading_ne {e : Expr} {s : Signature} {ret : Ty} {os : List Outline} :
    e.outline n p ≠ .item (s.heading ret) os := by
  rw [outline_eq, s.heading_eq]
  intro h
  have hk := Notes.kind_eq_of_annotate (Outline.item.inj h).1
  cases e <;> cases hk

mutual

theorem outline_inj : (e : Expr) → {e' : Expr} → {p p' : Path} → e.Legible → e'.Legible →
    e.outline n p = e'.outline n' p' → Coincides n n' p p' e e'
  | literal loc value, e', p, p', he, he', h => by
    obtain ⟨hk, hc, ht, -⟩ := head_inj he he' h
    cases e' with
    | literal loc' value' =>
      cases he with
      | literal hv =>
        obtain rfl := Literal.content_inj hv (HeadingKind.literal.inj hk) hc
        exact .of_parts rfl ht (by simp only [children, notedOf_nil])
    | _ => cases hk
  | name loc id, e', p, p', he, he', h => by
    obtain ⟨hk, hc, ht, -⟩ := head_inj he he' h
    cases e' with
    | name loc' id' =>
      obtain rfl := Option.some.inj hc
      exact .of_parts rfl ht (by simp only [children, notedOf_nil])
    | _ => cases hk
  | funDecl loc id, e', p, p', he, he', h => by
    obtain ⟨hk, hc, ht, -⟩ := head_inj he he' h
    cases e' with
    | funDecl loc' id' =>
      obtain rfl := Option.some.inj hc
      exact .of_parts rfl ht (by simp only [children, notedOf_nil])
    | _ => cases hk
  | unary loc op operand, e', p, p', he, he', h => by
    obtain ⟨hk, hc, ht, hbelow⟩ := head_inj he he' h
    cases e' with
    | unary loc' op' operand' =>
      have hoperand := outline_inj operand (he.part 0 rfl) (he'.part 0 rfl)
        (List.cons.inj hbelow).1
      obtain rfl := Operator.spelling_inj (Option.some.inj hc)
      exact .of_parts (by simp only [settle, unlocated, hoperand.tree]) ht (by simp [children, hoperand.types])
    | _ => cases hk
  | letIn loc id value, e', p, p', he, he', h => by
    obtain ⟨hk, hc, ht, hbelow⟩ := head_inj he he' h
    cases e' with
    | letIn loc' id' value' =>
      have hvalue := outline_inj value (he.part 0 rfl) (he'.part 0 rfl)
        (List.cons.inj hbelow).1
      obtain rfl := Option.some.inj hc
      exact .of_parts (by simp only [settle, unlocated, hvalue.tree]) ht (by simp [children, hvalue.types])
    | _ => cases hk
  | binary loc op lhs rhs, e', p, p', he, he', h => by
    obtain ⟨hk, hc, ht, hbelow⟩ := head_inj he he' h
    cases e' with
    | binary loc' op' lhs' rhs' =>
      obtain ⟨hfirst, hrest⟩ := List.cons.inj hbelow
      have hlhs := outline_inj lhs (he.part 0 rfl) (he'.part 0 rfl) hfirst
      have hrhs := outline_inj rhs (he.part 1 rfl) (he'.part 1 rfl)
        (List.cons.inj hrest).1
      obtain rfl := Operator.spelling_inj (Option.some.inj hc)
      exact .of_parts (by simp only [settle, unlocated, hlhs.tree, hrhs.tree]) ht
        (by simp [children, hlhs.types, hrhs.types])
    | _ => cases hk
  | ifThen loc test body, e', p, p', he, he', h => by
    obtain ⟨hk, -, ht, hbelow⟩ := head_inj he he' h
    cases e' with
    | ifThen loc' test' body' =>
      obtain ⟨hfirst, hrest⟩ := head_part_inj hbelow
      have htest := outline_inj test (he.part 0 rfl) (he'.part 0 rfl) hfirst
      have hbody := outline_inj body (he.part 1 rfl) (he'.part 1 rfl)
        (head_part_inj hrest).1
      exact .of_parts (by simp only [settle, unlocated, htest.tree, hbody.tree]) ht
        (by simp [children, htest.types, hbody.types])
    | ifElse => cases (head_part_inj (head_part_inj hbelow).2).2
    | _ => cases hk
  | ifElse loc test body orelse, e', p, p', he, he', h => by
    obtain ⟨hk, -, ht, hbelow⟩ := head_inj he he' h
    cases e' with
    | ifThen => cases (head_part_inj (head_part_inj hbelow).2).2
    | ifElse loc' test' body' orelse' =>
      obtain ⟨hfirst, hrest⟩ := head_part_inj hbelow
      obtain ⟨hsecond, hlast⟩ := head_part_inj hrest
      have htest := outline_inj test (he.part 0 rfl) (he'.part 0 rfl) hfirst
      have hbody := outline_inj body (he.part 1 rfl) (he'.part 1 rfl) hsecond
      have horelse := outline_inj orelse (he.part 2 rfl) (he'.part 2 rfl)
        (head_part_inj hlast).1
      exact .of_parts (by simp only [settle, unlocated, htest.tree, hbody.tree, horelse.tree]) ht
        (by simp [children, htest.types, hbody.types, horelse.types])
    | _ => cases hk
  | whileLoop loc test body, e', p, p', he, he', h => by
    obtain ⟨hk, -, ht, hbelow⟩ := head_inj he he' h
    cases e' with
    | whileLoop loc' test' body' =>
      obtain ⟨hfirst, hrest⟩ := head_part_inj hbelow
      have htest := outline_inj test (he.part 0 rfl) (he'.part 0 rfl) hfirst
      have hbody := outline_inj body (he.part 1 rfl) (he'.part 1 rfl)
        (head_part_inj hrest).1
      exact .of_parts (by simp only [settle, unlocated, htest.tree, hbody.tree]) ht
        (by simp [children, htest.types, hbody.types])
    | _ => cases hk
  | forLoop loc varLoc var start test step body, e', p, p', he, he', h => by
    obtain ⟨hk, -, ht, hbelow⟩ := head_inj he he' h
    cases e' with
    | forLoop loc' varLoc' var' start' test' step' body' =>
      obtain ⟨hfirst, hrest⟩ := head_part_inj hbelow
      obtain ⟨hsecond, hrest⟩ := head_part_inj hrest
      obtain ⟨hthird, hlast⟩ := head_part_inj hrest
      -- the binding of the variable has a heading of its own
      have hinit : (letIn varLoc var start).Legible := he.part 0 rfl
      have hinit' : (letIn varLoc' var' start').Legible := he'.part 0 rfl
      obtain ⟨-, hvar, htypes, hstart⟩ := head_inj hinit hinit' hfirst
      obtain rfl := Option.some.inj hvar
      have hstart := outline_inj start (hinit.part 0 rfl) (hinit'.part 0 rfl)
        (List.cons.inj hstart).1
      have htest := outline_inj test (he.part 1 rfl) (he'.part 1 rfl) hsecond
      have hstep := outline_inj step (he.part 2 rfl) (he'.part 2 rfl) hthird
      have hbody := outline_inj body (he.part 3 rfl) (he'.part 3 rfl)
        (head_part_inj hlast).1
      have hlet : Coincides n n' (0 :: p) (0 :: p') (letIn varLoc var start) (letIn varLoc' var start') :=
        .of_parts (by simp only [settle, unlocated, hstart.tree]) htypes (by simp [children, hstart.types])
      exact .of_parts (by simp only [settle, unlocated, hstart.tree, htest.tree, hstep.tree, hbody.tree]) ht
        (by simp [children, hlet.types, htest.types, hstep.types, hbody.types])
    | _ => cases hk
  | block loc functions statements, e', p, p', he, he', h => by
    obtain ⟨hk, -, ht, hbelow⟩ := head_inj he he' h
    cases e' with
    | block loc' functions' statements' =>
      obtain ⟨hfunctions, hnoted, hrest⟩ := functionOutlines_inj functions (he.signatures) (he'.signatures)
        (fun f hf => he.parts _ (List.mem_append_left _ (List.mem_map_of_mem hf)))
        (fun f hf => he'.parts _ (List.mem_append_left _ (List.mem_map_of_mem hf))) hbelow
      obtain ⟨hstatements, hnoted'⟩ := outlines_inj statements (fun e hm => he.parts _ (List.mem_append_right _ hm))
        (fun e hm => he'.parts _ (List.mem_append_right _ hm)) hrest
      refine .of_parts (by simp only [settle, unlocated, hfunctions, hstatements]) ht ?_
      simp only [children, notedOf_append, hnoted, List.length_map, Nat.zero_add, hnoted']
    | _ => cases hk
  | call loc callee args, e', p, p', he, he', h => by
    obtain ⟨hk, hc, ht, hbelow⟩ := head_inj he he' h
    cases e' with
    | call loc' callee' args' =>
      obtain rfl := Option.some.inj hc
      have hlegible : ∀ e ∈ args', e.Legible := he'.parts
      obtain ⟨hargs, hnoted⟩ := outlines_inj args he.parts hlegible hbelow
      exact .of_parts (by simp only [settle, unlocated, hargs]) ht hnoted
    | _ => cases hk

theorem outlines_inj : (es : List Expr) → {es' : List Expr} → {p p' : Path} → {i i' : Nat} → (∀ e ∈ es, e.Legible) →
    (∀ e ∈ es', e.Legible) → outlines n p i es = outlines n' p' i' es' →
    unlocatedAll (settleAll n p i es) = unlocatedAll (settleAll n' p' i' es') ∧
      notedOf n p i es = notedOf n' p' i' es'
  | [], [], _, _, _, _, _, _, _ => ⟨rfl, by simp⟩
  | [], _ :: _, _, _, _, _, _, _, h => by cases h
  | _ :: _, [], _, _, _, _, _, _, h => by cases h
  | e :: es, e' :: es', p, p', i, i', he, he', h => by
    obtain ⟨hhead, htail⟩ := List.cons.inj h
    have hfirst := outline_inj e (he e List.mem_cons_self) (he' e' List.mem_cons_self) hhead
    obtain ⟨htrees, htypes⟩ := outlines_inj es (fun e hm => he e (.tail _ hm)) (fun e hm => he' e (.tail _ hm)) htail
    exact ⟨by simp only [settleAll, unlocatedAll, hfirst.tree, htrees], by simp [hfirst.types, htypes]⟩

theorem functionOutlines_inj : (fs : List Function) → {fs' : List Function} → {es es' : List Expr} → {p p' : Path} →
    {i i' j j' : Nat} → (∀ f ∈ fs, f.signature.Legible) → (∀ f ∈ fs', f.signature.Legible) →
    (∀ f ∈ fs, f.body.Legible) → (∀ f ∈ fs', f.body.Legible) →
    functionOutlines n p i fs ++ outlines n p j es = functionOutlines n' p' i' fs' ++ outlines n' p' j' es' →
    unlocatedFunctions (settleFunctions n p i fs) = unlocatedFunctions (settleFunctions n' p' i' fs') ∧
      notedOf n p i (fs.map (·.body)) = notedOf n' p' i' (fs'.map (·.body)) ∧
      outlines n p j es = outlines n' p' j' es'
  | [], [], _, _, _, _, _, _, _, _, _, _, _, _, h => ⟨rfl, by simp, h⟩
  | [], ⟨s', body'⟩ :: fs', es, es', p, p', i, i', j, j', _, _, _, _, h => by
    cases es with
    | nil => cases h
    | cons e es => exact absurd (List.cons.inj h).1 functionHeading_ne
  | ⟨s, body⟩ :: fs, [], es, es', p, p', i, i', j, j', _, _, _, _, h => by
    cases es' with
    | nil => cases h
    | cons e' es' => exact absurd (List.cons.inj h).1.symm functionHeading_ne
  | ⟨s, body⟩ :: fs, ⟨s', body'⟩ :: fs', es, es', p, p', i, i', j, j', hs, hs', hb, hb', h => by
    obtain ⟨hhead, htail⟩ := List.cons.inj h
    obtain ⟨hheading, hbelow⟩ := Outline.item.inj hhead
    have hbody := outline_inj body (hb _ List.mem_cons_self) (hb' _ List.mem_cons_self) (List.cons.inj hbelow).1
    rw [s.heading_eq, s'.heading_eq] at hheading
    obtain ⟨hname, hparams, hret⟩ :
        s.name = s'.name ∧ s.params = s'.params ∧ n.returnOf (i :: p) s = n'.returnOf (i' :: p') s' :=
      Signature.content_inj (hs _ List.mem_cons_self) (hs' _ List.mem_cons_self)
        (List.cons.inj (List.append_cancel_left hheading)).2
    obtain ⟨hfunctions, hnoted, hrest⟩ := functionOutlines_inj fs (fun f hm => hs f (.tail _ hm))
      (fun f hm => hs' f (.tail _ hm)) (fun f hm => hb f (.tail _ hm)) (fun f hm => hb' f (.tail _ hm)) htail
    refine ⟨?_, by simp [hbody.types, hnoted], hrest⟩
    simp only [settleFunctions, unlocatedFunctions, Signature.settle, Signature.unlocated, hname, hparams, hret,
      hbody.tree, hfunctions]

end

/-- Legible trees with the same dump coincide. -/
theorem dump_inj {e e' : Expr} (he : e.Legible) (he' : e'.Legible) (h : e.dump n p = e'.dump n' p') :
    Coincides n n' p p' e e' :=
  outline_inj e he he' (Outline.text_inj (legible_outline n p e he) (legible_outline n' p' e' he') h)

/-- A text that looks as if a type stood behind it is told from one behind which a type stands. -/
theorem dump_inj_quoted :
    let contents : Text := "a\" : Str"
    let e : Expr := letIn ⟨"m", 1, 1⟩ "x" (literal ⟨"m", 1, 9⟩ (.str contents))
    let e' : Expr := letIn {} "x" (literal {} (.str contents))
    let noted : Notes := ({} : Notes).setType [0] .unit
    e.Legible ∧ e'.Legible ∧ e.dump noted [0] = e'.dump (noted.setType [0] .unit) [0] ∧
      Coincides noted (noted.setType [0] .unit) [0] [0] e e' := by
  have hline : '\n' ∉ "a\" : Str".toList := by decide
  have hlegible : ∀ loc loc' : Location, (letIn loc "x" (literal loc' (.str "a\" : Str"))).Legible := fun _ _ =>
    .letIn (.literal hline) (.inl ⟨by decide, by decide⟩)
  refine ⟨hlegible _ _, hlegible _ _, ?_, dump_inj (hlegible _ _) (hlegible _ _) ?_⟩
  all_goals with_unfolding_all rfl

end FrontEnd.Expr
