import FrontEnd.Proofs.Syntax.Nodes
import FrontEnd.Syntax.Phrase
import Mathlib.Data.List.Forall2

/-!
# Texts and trees that differ in their places

Everything that carries places is compared up to a relation `R` between the places of the one side and those of the
other.

* `Token.Alike`, `TokenStream.Alike` : the same kinds and texts; the operations on streams keep this;
* `Signature.Alike`, `Expr.Alike`, `Function.Alike` : the same trees, node by node;
  `Expr.Alike.children`, `Expr.Alike.nodeCount` : the same parts, and the same size;
* `Expr.Corresponds` : the places of two trees that belong together, `Expr.Alike.refine` : only these are compared;
* `Fault.Alike` : the same cause.
-/

namespace FrontEnd
variable {R S : Location → Location → Prop}

/-! ## Lists side by side -/

theorem getElem?_of_forall₂ {α β : Type} {T : α → β → Prop} {as : List α} {bs : List β} (h : List.Forall₂ T as bs)
    {k : Nat} {a : α} (hk : as[k]? = some a) : ∃ b, bs[k]? = some b ∧ T a b := by
  obtain ⟨hlt, rfl⟩ := List.getElem?_eq_some_iff.1 hk
  exact ⟨_, List.getElem?_eq_getElem (h.length_eq ▸ hlt), h.get hlt (h.length_eq ▸ hlt)⟩

theorem forall₂_of_getElem? {α β : Type} {T : α → β → Prop} {as : List α} {bs : List β} (hlen : as.length = bs.length)
    (h : ∀ (k : Nat) a b, as[k]? = some a → bs[k]? = some b → T a b) : List.Forall₂ T as bs :=
  List.forall₂_iff_get.2 ⟨hlen, fun k ha hb => h k _ _ (List.getElem?_eq_getElem ha) (List.getElem?_eq_getElem hb)⟩

/-! ## Tokens -/

/-- The same token, at another place. -/
structure Token.Alike (R : Location → Location → Prop) (t t' : Token) : Prop where
  kind : t.kind = t'.kind
  text : t.text = t'.text
  loc : R t.loc t'.loc

/-- The same tokens one by one, at other places. -/
structure TokenStream.Alike (R : Location → Location → Prop) (s s' : TokenStream) : Prop where
  ahead : List.Forall₂ (Token.Alike R) s.ahead s'.ahead
  endLoc : R s.endLoc s'.endLoc

namespace TokenStream.Alike
variable {s s' : TokenStream} (h : s.Alike R s')
include h

theorem size : s.size = s'.size := h.ahead.length_eq

theorem last : s.last.Alike R s'.last := ⟨rfl, rfl, h.endLoc⟩

theorem toList : List.Forall₂ (Token.Alike R) s.toList s'.toList :=
  List.rel_append h.ahead (.cons h.last .nil)

theorem token (k : Nat) : (s.token k).Alike R (s'.token k) := by
  have hk := s.getElem?_toList k
  have hk' := s'.getElem?_toList k
  rw [← h.size] at hk'
  obtain ⟨t, ht, halike⟩ := getElem?_of_forall₂ h.toList hk
  rwa [← Option.some.inj (hk'.symm.trans ht)] at halike

theorem current : s.current.Alike R s'.current := by
  simpa only [token_zero] using h.token 0

theorem kind : s.kind = s'.kind := h.current.kind

theorem loc : R s.loc s'.loc := h.current.loc

theorem atEnd : s.atEnd = s'.atEnd := by
  rw [TokenStream.atEnd, TokenStream.atEnd, h.kind]

theorem advance : s.advance.Alike R s'.advance where
  ahead := by
    rw [TokenStream.advance, TokenStream.advance, ← List.drop_one, ← List.drop_one]
    exact List.forall₂_drop 1 h.ahead
  endLoc := h.endLoc

theorem skip (k : TokenKind) : (s.skip k).Alike R (s'.skip k) := by
  unfold TokenStream.skip
  rw [← h.kind]
  split
  · exact h.advance
  · exact h

end TokenStream.Alike

/-! ## Trees -/

/-- The same statements about a function, at another place. -/
structure Signature.Alike (R : Location → Location → Prop) (s s' : Signature) : Prop where
  name : s.name = s'.name
  loc : R s.loc s'.loc
  params : s.params = s'.params
  ret : s.ret = s'.ret

section
variable (R)

mutual

/-- The same tree with other places. -/
inductive Expr.Alike : Expr → Expr → Prop
  | literal {loc loc' : Location} {value : Literal} (hloc : R loc loc') :
    Expr.Alike (.literal loc value) (.literal loc' value)
  | name {loc loc' : Location} {id : Text} (hloc : R loc loc') : Expr.Alike (.name loc id) (.name loc' id)
  | unary {loc loc' : Location} {op : Operator} {operand operand' : Expr} (hloc : R loc loc')
    (h : Expr.Alike operand operand') : Expr.Alike (.unary loc op operand) (.unary loc' op operand')
  | binary {loc loc' : Location} {op : Operator} {lhs lhs' rhs rhs' : Expr} (hloc : R loc loc')
    (hl : Expr.Alike lhs lhs') (hr : Expr.Alike rhs rhs') :
    Expr.Alike (.binary loc op lhs rhs) (.binary loc' op lhs' rhs')
  | letIn {loc loc' : Location} {id : Text} {value value' : Expr} (hloc : R loc loc')
    (h : Expr.Alike value value') : Expr.Alike (.letIn loc id value) (.letIn loc' id value')
  | ifThen {loc loc' : Location} {test test' body body' : Expr} (hloc : R loc loc') (ht : Expr.Alike test test')
    (hb : Expr.Alike body body') : Expr.Alike (.ifThen loc test body) (.ifThen loc' test' body')
  | ifElse {loc loc' : Location} {test test' body body' orelse orelse' : Expr} (hloc : R loc loc')
    (ht : Expr.Alike test test') (hb : Expr.Alike body body') (he : Expr.Alike orelse orelse') :
    Expr.Alike (.ifElse loc test body orelse) (.ifElse loc' test' body' orelse')
  | whileLoop {loc loc' : Location} {test test' body body' : Expr} (hloc : R loc loc') (ht : Expr.Alike test test')
    (hb : Expr.Alike body body') : Expr.Alike (.whileLoop loc test body) (.whileLoop loc' test' body')
  | forLoop {loc loc' varLoc varLoc' : Location} {var : Text} {start start' test test' step step' body body' : Expr}
    (hloc : R loc loc') (hvar : R varLoc varLoc') (hs : Expr.Alike start start') (ht : Expr.Alike test test')
    (hi : Expr.Alike step step') (hb : Expr.Alike body body') :
    Expr.Alike (.forLoop loc varLoc var start test step body) (.forLoop loc' varLoc' var start' test' step' body')
  | block {loc loc' : Location} {functions functions' : List Function} {statements statements' : List Expr}
    (hloc : R loc loc') (hf : List.Forall₂ Function.Alike functions functions')
    (hs : List.Forall₂ Expr.Alike statements statements') :
    Expr.Alike (.block loc functions statements) (.block loc' functions' statements')
  | call {loc loc' : Location} {callee : Text} {args args' : List Expr} (hloc : R loc loc')
    (hargs : List.Forall₂ Expr.Alike args args') : Expr.Alike (.call loc callee args) (.call loc' callee args')
  | funDecl {loc loc' : Location} {name : Text} (hloc : R loc loc') :
    Expr.Alike (.funDecl loc name) (.funDecl loc' name)

/-- The same function with other places. -/
inductive Function.Alike : Function → Function → Prop
  | mk {signature signature' : Signature} {body body' : Expr} (hs : signature.Alike R signature')
    (hb : Expr.Alike body body') : Function.Alike ⟨signature, body⟩ ⟨signature', body'⟩

end
end

theorem Function.Alike.of {f f' : Function} (hs : f.signature.Alike R f'.signature) (hb : f.body.Alike R f'.body) :
    f.Alike R f' := by
  cases f
  cases f'
  exact .mk hs hb

theorem Function.Alike.signature {f f' : Function} (h : f.Alike R f') : f.signature.Alike R f'.signature := by
  cases h with | mk hs _ => exact hs

theorem Function.Alike.body {f f' : Function} (h : f.Alike R f') : f.body.Alike R f'.body := by
  cases h with | mk _ hb => exact hb

namespace Expr

/-- `loc` and `loc'` are places of the same node, or of the same function, of the trees `e` and `e'` at `p`. -/
def Corresponds (p : Path) (e e' : Expr) (loc loc' : Location) : Prop :=
  (∃ q n n', (q, n) ∈ nodes p e ∧ (q, n') ∈ nodes p e' ∧ loc = n.loc ∧ loc' = n'.loc) ∨
    ∃ site f f', Places p e site f ∧ Places p e' site f' ∧ loc = f.signature.loc ∧ loc' = f'.signature.loc

namespace Alike
variable {e e' : Expr}

theorem loc (h : e.Alike R e') : R e.loc e'.loc := by
  cases h <;> assumption

theorem children (h : e.Alike R e') : List.Forall₂ (Expr.Alike R) e.children e'.children := by
  cases h with
  | literal | name | funDecl => exact .nil
  | unary _ h | letIn _ h => exact .cons h .nil
  | binary _ h₁ h₂ | ifThen _ h₁ h₂ | whileLoop _ h₁ h₂ => exact .cons h₁ (.cons h₂ .nil)
  | ifElse _ ht hb he => exact .cons ht (.cons hb (.cons he .nil))
  | forLoop _ hvar hs ht hi hb => exact .cons (.letIn hvar hs) (.cons ht (.cons hi (.cons hb .nil)))
  | block _ hf hs =>
    refine List.rel_append ?_ hs
    rw [List.forall₂_map_left_iff, List.forall₂_map_right_iff]
    exact hf.imp fun _ _ h => h.body
  | call _ hargs => exact hargs

/-- Trees are alike to themselves if places are. -/
theorem refl (hR : ∀ loc, R loc loc) (e : Expr) : e.Alike R e := by
  induction hn : e.nodeCount using Nat.strongRecOn generalizing e with
  | ind n ih =>
    have hparts : ∀ (k : Nat) part, e.children[k]? = some part → part.Alike R part :=
      fun k part hk => ih _ (hn ▸ nodeCount_lt_of_mem_children hk) part rfl
    cases e with
    | literal => exact .literal (hR _)
    | name => exact .name (hR _)
    | unary => exact .unary (hR _) (hparts 0 _ rfl)
    | binary => exact .binary (hR _) (hparts 0 _ rfl) (hparts 1 _ rfl)
    | letIn => exact .letIn (hR _) (hparts 0 _ rfl)
    | ifThen => exact .ifThen (hR _) (hparts 0 _ rfl) (hparts 1 _ rfl)
    | ifElse => exact .ifElse (hR _) (hparts 0 _ rfl) (hparts 1 _ rfl) (hparts 2 _ rfl)
    | whileLoop => exact .whileLoop (hR _) (hparts 0 _ rfl) (hparts 1 _ rfl)
    | forLoop =>
      cases hparts 0 _ rfl with
      | letIn _ hs => exact .forLoop (hR _) (hR _) hs (hparts 1 _ rfl) (hparts 2 _ rfl) (hparts 3 _ rfl)
    | block =>
      refine .block (hR _) (List.forall₂_same.2 fun f hf => ?_) (List.forall₂_same.2 fun part hpart => ?_)
      · obtain ⟨k, hk⟩ := List.mem_iff_getElem?.1 hf
        exact .of ⟨rfl, hR _, rfl, rfl⟩ (hparts k _ (children_of_functions hk))
      · obtain ⟨k, hk⟩ := List.mem_iff_getElem?.1 hpart
        exact hparts _ part (children_of_statements hk)
    | call =>
      refine .call (hR _) (List.forall₂_same.2 fun part hpart => ?_)
      obtain ⟨k, hk⟩ := List.mem_iff_getElem?.1 hpart
      exact hparts k part hk
    | funDecl => exact .funDecl (hR _)

theorem nodeCount (h : e.Alike R e') : e.nodeCount = e'.nodeCount := by
  induction hn : e.nodeCount using Nat.strongRecOn generalizing e e' with
  | ind n ih =>
    have htotal : ∀ {es es' : List Expr}, List.Forall₂ (Expr.Alike R) es es' → (∀ part ∈ es, part.nodeCount < n) →
        totalCount es = totalCount es' := by
      intro es es' hes
      induction hes with
      | nil => exact fun _ => rfl
      | cons hpart _ ihes =>
        intro hlt
        rw [totalCount, totalCount, ihes fun part hp => hlt part (.tail _ hp),
          ← ih _ (hlt _ List.mem_cons_self) hpart rfl]
    rw [← hn, nodeCount_eq_children e, nodeCount_eq_children e', htotal h.children]
    intro part hp
    obtain ⟨k, hk⟩ := List.mem_iff_getElem?.1 hp
    exact hn ▸ nodeCount_lt_of_mem_children hk

end Alike

/-! ### Places that belong together -/

theorem Corresponds.of_part {p : Path} {e e' part part' : Expr} {k : Nat} {loc loc' : Location}
    (hk : e.children[k]? = some part) (hk' : e'.children[k]? = some part')
    (h : Corresponds (k :: p) part part' loc loc') : Corresponds p e e' loc loc' := by
  have hnodes : ∀ {q n}, (q, n) ∈ nodes (k :: p) part → (q, n) ∈ nodes p e := fun hn =>
    mem_nodes.2 (.inr ⟨k, part, hk, hn⟩)
  have hnodes' : ∀ {q n}, (q, n) ∈ nodes (k :: p) part' → (q, n) ∈ nodes p e' := fun hn =>
    mem_nodes.2 (.inr ⟨k, part', hk', hn⟩)
  rcases h with ⟨q, n, n', hn, hn', hloc, hloc'⟩ | ⟨site, f, f', hf, hf', hloc, hloc'⟩
  · exact .inl ⟨q, n, n', hnodes hn, hnodes' hn', hloc, hloc'⟩
  · obtain ⟨j, q, l, fs, ss, hsite, hn, hj⟩ := hf
    obtain ⟨j', q', l', fs', ss', hsite', hn', hj'⟩ := hf'
    exact .inr ⟨site, f, f', ⟨j, q, l, fs, ss, hsite, hnodes hn, hj⟩, ⟨j', q', l', fs', ss', hsite', hnodes' hn', hj'⟩,
      hloc, hloc'⟩

/-- Trees that are alike are alike up to any relation between the places that belong together in them. -/
theorem Alike.refine {p : Path} {e e' : Expr} (h : e.Alike R e')
    (hS : ∀ loc loc', R loc loc' → Corresponds p e e' loc loc' → S loc loc') : e.Alike S e' := by
  induction hc : e.nodeCount using Nat.strongRecOn generalizing p e e' with
  | ind c ih =>
    have hparts : ∀ (k : Nat) part part', e.children[k]? = some part → e'.children[k]? = some part' →
        part.Alike S part' := by
      intro k part part' hk hk'
      obtain ⟨_, hk₁, hpart⟩ := getElem?_of_forall₂ h.children hk
      obtain rfl := Option.some.inj (hk'.symm.trans hk₁)
      have hpair : ∀ loc loc', R loc loc' → Corresponds (k :: p) part part' loc loc' → S loc loc' :=
        fun loc loc' hR hcorr => hS loc loc' hR (hcorr.of_part hk hk')
      exact ih _ (hc ▸ nodeCount_lt_of_mem_children hk) hpart hpair rfl
    have hroot : S e.loc e'.loc :=
      hS _ _ h.loc (.inl ⟨p, e, e', self_mem_nodes p e, self_mem_nodes p e', rfl, rfl⟩)
    cases h with
    | literal => exact .literal hroot
    | name => exact .name hroot
    | unary => exact .unary hroot (hparts 0 _ _ rfl rfl)
    | binary => exact .binary hroot (hparts 0 _ _ rfl rfl) (hparts 1 _ _ rfl rfl)
    | letIn => exact .letIn hroot (hparts 0 _ _ rfl rfl)
    | ifThen => exact .ifThen hroot (hparts 0 _ _ rfl rfl) (hparts 1 _ _ rfl rfl)
    | ifElse => exact .ifElse hroot (hparts 0 _ _ rfl rfl) (hparts 1 _ _ rfl rfl) (hparts 2 _ _ rfl rfl)
    | whileLoop => exact .whileLoop hroot (hparts 0 _ _ rfl rfl) (hparts 1 _ _ rfl rfl)
    | forLoop =>
      -- the place of the variable is that of the binding, which is a part of the loop
      cases hparts 0 _ _ rfl rfl with
      | letIn hvar hs =>
        exact .forLoop hroot hvar hs (hparts 1 _ _ rfl rfl) (hparts 2 _ _ rfl rfl) (hparts 3 _ _ rfl rfl)
    | @block loc loc' functions functions' statements statements' _ hf hs =>
      have hlen := hf.length_eq
      refine .block hroot (forall₂_of_getElem? hlen fun k f f' hk hk' => ?_)
        (forall₂_of_getElem? hs.length_eq fun k part part' hk hk' => ?_)
      · obtain ⟨_, hk₁, hfun⟩ := getElem?_of_forall₂ hf hk
        obtain rfl := Option.some.inj (hk'.symm.trans hk₁)
        have hsig := hfun.signature
        have hplace : S f.signature.loc f'.signature.loc := hS _ _ hsig.loc
          (.inr ⟨k :: p, f, f', ⟨k, p, loc, functions, statements, rfl, self_mem_nodes _ _, hk⟩,
            ⟨k, p, loc', functions', statements', rfl, self_mem_nodes _ _, hk'⟩, rfl, rfl⟩)
        exact .of ⟨hsig.name, hplace, hsig.params, hsig.ret⟩
          (hparts k _ _ (children_of_functions hk) (children_of_functions hk'))
      · exact hparts (functions.length + k) part part' (children_of_statements hk)
          (hlen ▸ children_of_statements hk')
    | call _ hargs => exact .call hroot (forall₂_of_getElem? hargs.length_eq hparts)
    | funDecl => exact .funDecl hroot

end Expr

/-! ## Faults -/

/-- The same fault, at another place. -/
inductive Fault.Alike (R : Location → Location → Prop) : Fault → Fault → Prop
  | parse {cause : SyntaxError} {loc loc' : Location} (hloc : R loc loc') :
    Fault.Alike R (.parse cause loc) (.parse cause loc')
  | typing {cause : TypeError} {loc loc' : Location} (hloc : R loc loc') :
    Fault.Alike R (.typing cause loc) (.typing cause loc')
  | internal {cause : InternalError} : Fault.Alike R (.internal cause) (.internal cause)

end FrontEnd
