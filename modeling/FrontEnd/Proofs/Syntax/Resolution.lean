import FrontEnd.Proofs.Syntax.Grammar

/-!
# What precedence makes of a run of terms

* `Term.IsSentence` : the runs that are resolved: operands with their unary operators, joined by binary ones;
* `Combination` : a tree over the operands of a run, which does not look into them; `Combination.terms` : its reading
  from left to right;
* `Combination.Shaped` : a tree in which unary operators bind most tightly, tighter tiers stand below looser ones, and
  operators of the same tier lean to the right; `Combination.Shaped.unique` : its reading determines such a tree;
* `Term.splitAtTier?_further` : the split of a sentence is made between its parts;
* `Term.resolve_yields_shaped` : what is resolved is a sentence, and its tree is shaped;
* `Term.resolve_of_isSentence` : every sentence is resolved;
* `Term.resolve_exact` : all of this together.
-/

namespace FrontEnd
namespace Term

/-- The tier of a term that is an operator with binary use. -/
def tier? : Term → Option Nat
  | operand _ => none
  | operator op _ => op.tier

/-! ## Sentences -/

/-- Any number of `!` and an operand. -/
inductive IsNegation : List Term → Prop
  | operand {e : Expr} : IsNegation [operand e]
  | not {loc : Location} {run : List Term} (h : IsNegation run) : IsNegation (operator .not loc :: run)

/-- An optional `-`, any number of `!` and an operand. -/
inductive IsSigned : List Term → Prop
  | unsigned {run : List Term} (h : IsNegation run) : IsSigned run
  | minus {loc : Location} {run : List Term} (h : IsNegation run) : IsSigned (operator .subtract loc :: run)

/-- What may stand behind an operator of a tier: no `-` of its own behind one of the tightest tier. -/
def MayFollow (tier : Nat) (run : List Term) : Prop := if tier = 0 then IsNegation run else IsSigned run

/-- Binary operators, each with what may follow it. -/
inductive IsFurther : List Term → Prop
  | nil : IsFurther []
  | cons {op : Operator} {loc : Location} {tier : Nat} {part rest : List Term} (ht : op.tier = some tier)
    (hp : MayFollow tier part) (hr : IsFurther rest) : IsFurther (operator op loc :: (part ++ rest))

/-- An operand with its unary operators, and binary operators with what follows them. -/
def IsSentence (run : List Term) : Prop :=
  ∃ first further, run = first ++ further ∧ IsSigned first ∧ IsFurther further

/-- The operators of a run that have an operand in front of them; `afterOperand` says whether one stands in front of
the run. -/
def infixes : (afterOperand : Bool) → List Term → List Operator
  | _, [] => []
  | _, operand _ :: rest => infixes true rest
  | true, operator op _ :: rest => op :: infixes false rest
  | false, operator _ _ :: rest => infixes false rest

end Term

/-! ## Trees over operands -/

/-- A tree of operators over operands, which are not looked into. -/
inductive Combination where
  | operand (e : Expr)
  | unary (loc : Location) (op : Operator) (part : Combination)
  | binary (loc : Location) (op : Operator) (left right : Combination)

namespace Combination

/-- The tree as an expression. -/
def expr : Combination → Expr
  | operand e => e
  | unary loc op part => .unary loc op part.expr
  | binary loc op left right => .binary loc op left.expr right.expr

/-- The tree read from left to right. -/
def terms : Combination → List Term
  | operand e => [.operand e]
  | unary loc op part => .operator op loc :: part.terms
  | binary loc op left right => left.terms ++ .operator op loc :: right.terms

/-- The binary operators of the tree, from left to right. -/
def binaries : Combination → List Operator
  | operand _ => []
  | unary _ _ part => part.binaries
  | binary _ op left right => left.binaries ++ op :: right.binaries

/-- No unary operator stands above a binary one; the binary operators to the left of one of a tier are of tighter
tiers, and those to its right of none that is looser. -/
inductive Shaped : Combination → Prop
  | operand {e : Expr} : Shaped (operand e)
  | unary {loc : Location} {op : Operator} {part : Combination} (hp : Shaped part) (hno : part.binaries = []) :
    Shaped (unary loc op part)
  | binary {loc : Location} {op : Operator} {tier : Nat} {left right : Combination} (ht : op.tier = some tier)
    (hl : Shaped left) (hr : Shaped right) (hlt : ∀ o ∈ left.binaries, ∃ n < tier, o.tier = some n)
    (hle : ∀ o ∈ right.binaries, ∃ n ≤ tier, o.tier = some n) : Shaped (binary loc op left right)

variable {c c' : Combination}

/-- The binary operators are those with an operand in front of them. -/
theorem infixes_terms_append (c : Combination) (rest : List Term) :
    Term.infixes false (c.terms ++ rest) = c.binaries ++ Term.infixes true rest := by
  induction c generalizing rest with
  | operand e => rfl
  | unary loc op part ih => exact ih rest
  | binary loc op left right ihl ihr =>
    rw [terms, List.append_assoc, ihl, List.cons_append, Term.infixes, ihr, binaries, List.append_assoc,
      List.cons_append]

theorem binaries_eq (c : Combination) : c.binaries = Term.infixes false c.terms := by
  have := infixes_terms_append c []
  rw [List.append_nil, Term.infixes, List.append_nil] at this
  exact this.symm

theorem binaries_congr (h : c.terms = c'.terms) : c.binaries = c'.binaries := by
  rw [binaries_eq, binaries_eq, h]

theorem terms_ne_nil (c : Combination) : c.terms ≠ [] := by
  cases c <;> simp [terms]

theorem Shaped.tier_of_mem (h : c.Shaped) {o : Operator} (ho : o ∈ c.binaries) : ∃ n, o.tier = some n := by
  induction h with
  | operand => cases ho
  | unary _ hno => rw [binaries, hno] at ho; cases ho
  | binary ht _ _ hlt hle _ _ =>
    rcases List.mem_append.1 ho with ho | ho
    · obtain ⟨n, -, hn⟩ := hlt o ho
      exact ⟨n, hn⟩
    · rcases List.mem_cons.1 ho with rfl | ho
      · exact ⟨_, ht⟩
      · obtain ⟨n, -, hn⟩ := hle o ho
        exact ⟨n, hn⟩

section
variable {loc loc' : Location} {op op' : Operator} {left right left' right' : Combination}

/-- Two shaped trees of one reading do not part at different operators. -/
theorem Shaped.no_longer {between : List Term} (h : (Combination.binary loc op left right).Shaped)
    (h' : (Combination.binary loc' op' left' right').Shaped)
    (hl : left'.terms = left.terms ++ .operator op loc :: between)
    (hr : right.terms = between ++ .operator op' loc' :: right'.terms) : False := by
  have hleft : left'.binaries = left.binaries ++ op :: Term.infixes false between := by
    rw [binaries_eq, hl, infixes_terms_append, Term.infixes]
  have hall : left.binaries ++ op :: right.binaries = left'.binaries ++ op' :: right'.binaries := by
    refine @binaries_congr (.binary loc op left right) (.binary loc' op' left' right') ?_
    rw [terms, terms, hl, hr, List.append_assoc, List.cons_append]
  have hright : right.binaries = Term.infixes false between ++ op' :: right'.binaries := by
    rw [hleft, List.append_assoc, List.cons_append] at hall
    exact List.tail_eq_of_cons_eq (List.append_cancel_left hall)
  cases h with
  | binary ht _ _ _ hle =>
    cases h' with
    | binary ht' _ _ hlt' _ =>
      obtain ⟨n, hn, hop⟩ := hlt' op (by simp [hleft])
      obtain ⟨n', hn', hop'⟩ := hle op' (by simp [hright])
      rw [ht, Option.some.injEq] at hop
      rw [ht', Option.some.injEq] at hop'
      omega

/-- Two shaped trees of one reading part at the same place. -/
theorem Shaped.parts_eq (h : (Combination.binary loc op left right).Shaped)
    (h' : (Combination.binary loc' op' left' right').Shaped)
    (ht : (Combination.binary loc op left right).terms = (Combination.binary loc' op' left' right').terms) :
    left.terms = left'.terms ∧ (op, loc) = (op', loc') ∧ right.terms = right'.terms := by
  rw [terms, terms, List.append_eq_append_iff] at ht
  rcases ht with ⟨between, hleft, hright⟩ | ⟨between, hleft, hright⟩ <;> cases between with
  | nil => simp_all
  | cons t between =>
    rw [List.cons_append, List.cons.injEq] at hright
    obtain ⟨rfl, hright⟩ := hright
    first | exact (h.no_longer h' hleft hright).elim | exact (h'.no_longer h hleft hright).elim

end

theorem Shaped.unique (h : c.Shaped) (h' : c'.Shaped) (ht : c.terms = c'.terms) : c = c' := by
  have hbinaries := binaries_congr ht
  induction h generalizing c' with
  | operand =>
    cases h' with
    | operand => simpa [terms] using ht
    | unary => simp [terms] at ht
    | binary => simp [binaries] at hbinaries
  | unary _ hno ih =>
    rw [binaries, hno] at hbinaries
    cases h' with
    | operand => simp [terms] at ht
    | unary hp' =>
      simp only [terms, List.cons.injEq, Term.operator.injEq] at ht
      obtain ⟨⟨rfl, rfl⟩, ht⟩ := ht
      rw [ih hp' ht (binaries_congr ht)]
    | binary => simp [binaries] at hbinaries
  | binary hop hl hr hlt hle ihl ihr =>
    cases h' with
    | operand => simp [binaries] at hbinaries
    | unary _ hno => simp [binaries, hno] at hbinaries
    | binary hop' hl' hr' hlt' hle' =>
      obtain ⟨hleft, heq, hright⟩ := parts_eq (.binary hop hl hr hlt hle) (.binary hop' hl' hr' hlt' hle') ht
      cases heq
      rw [ihl hl' hleft (binaries_congr hleft), ihr hr' hright (binaries_congr hright)]

end Combination

/-! ## Splits -/

namespace Term

variable {tier : Nat} {run part rest : List Term} {s : Split}

theorem splitAtTier?_append (h : ∀ t ∈ part, t.tier? ≠ some tier) :
    splitAtTier? tier (part ++ rest) = (splitAtTier? tier rest).map fun s => { s with left := part ++ s.left } := by
  induction part with
  | nil => simp
  | cons t part ih =>
    have ht := h t List.mem_cons_self
    have hpart := ih fun t' ht' => h t' (List.mem_cons_of_mem t ht')
    cases t with
    | operand e => rw [List.cons_append, splitAtTier?, hpart, Option.map_map]; rfl
    | operator op loc =>
      rw [List.cons_append, splitAtTier?, if_neg (by exact ht), hpart, Option.map_map]; rfl

theorem splitAtTier?_eq_none_iff : splitAtTier? tier run = none ↔ ∀ t ∈ run, t.tier? ≠ some tier := by
  fun_induction splitAtTier? tier run with
  | case1 => simp
  | case2 e rest ih => simp [ih, tier?]
  | case3 op loc rest ht => simp [ht, tier?]
  | case4 op loc rest ht ih => simp [ih, ht, tier?]

/-- The split is made at the first operator of the tier. -/
theorem tier_of_mem_left (h : splitAtTier? tier run = some s) : ∀ t ∈ s.left, t.tier? ≠ some tier := by
  fun_induction splitAtTier? tier run generalizing s with
  | case1 => cases h
  | case2 e rest ih =>
    obtain ⟨s', hs', rfl⟩ := Option.map_eq_some_iff.1 h
    simpa [tier?] using ih hs'
  | case3 op loc rest ht =>
    cases h
    simp
  | case4 op loc rest ht ih =>
    obtain ⟨s', hs', rfl⟩ := Option.map_eq_some_iff.1 h
    simpa [tier?, ht] using ih hs'

variable {first : Term}

/-- The split of a run is made at the first operator of the loosest tier behind its first term. -/
theorem loosest_of_split? (h : split? first rest = some s) :
    ∃ tier s', splitAtTier? tier rest = some s' ∧ s = { s' with left := first :: s'.left } ∧
      ∀ t ∈ rest, ∀ n, t.tier? = some n → n ≤ tier := by
  obtain ⟨s', hs', rfl⟩ := Option.map_eq_some_iff.1 h
  obtain ⟨looser, tier, tighter, hall, hs', hnone⟩ := List.findSome?_eq_some_iff.1 hs'
  refine ⟨tier, s', hs', rfl, fun t ht n hn => ?_⟩
  have hmem : n ∈ looser ++ tier :: tighter := by
    rw [← hall]
    cases t with
    | operand => cases hn
    | operator op loc => exact Operator.mem_tiersLoosestFirst hn
  rcases List.mem_append.1 hmem with hl | ht'
  · exact (splitAtTier?_eq_none_iff.1 (hnone n hl) t ht hn).elim
  · have hsorted : Operator.tiersLoosestFirst.Pairwise (· > ·) := by decide
    rw [hall] at hsorted
    rcases List.mem_cons.1 ht' with rfl | ht'
    · exact le_rfl
    · exact ((List.pairwise_cons.1 (List.pairwise_append.1 hsorted).2.1).1 n ht').le

theorem tier?_of_split?_eq_none (h : split? first rest = none) : ∀ t ∈ rest, t.tier? = none := by
  intro t ht
  rw [split?, Option.map_eq_none_iff, List.findSome?_eq_none_iff] at h
  cases hn : t.tier? with
  | none => rfl
  | some n =>
    have hmem : n ∈ Operator.tiersLoosestFirst := by
      cases t with
      | operand => cases hn
      | operator op loc => exact Operator.mem_tiersLoosestFirst hn
    exact (splitAtTier?_eq_none_iff.1 (h n hmem) t ht hn).elim

/-! ## Splits of sentences -/

theorem IsNegation.tier?_eq_none (h : IsNegation run) : ∀ t ∈ run, t.tier? = none := by
  induction h with
  | operand => simp [tier?]
  | not _ ih => simpa [tier?, Operator.tier] using ih

theorem IsSigned.eq_cons (h : IsSigned run) : ∃ t tail, run = t :: tail ∧ ∀ t' ∈ tail, t'.tier? = none := by
  cases h with
  | unsigned h =>
    cases h with
    | operand => exact ⟨_, _, rfl, by simp⟩
    | not h => exact ⟨_, _, rfl, h.tier?_eq_none⟩
  | minus h => exact ⟨_, _, rfl, h.tier?_eq_none⟩

theorem MayFollow.isSigned {n : Nat} (h : MayFollow n part) : IsSigned part := by
  unfold MayFollow at h
  split at h
  · exact .unsigned h
  · exact h

/-- A `-` of its own stands only behind an operator whose tier is no tighter than that of `-`. -/
theorem MayFollow.tier?_ne {n : Nat} (h : MayFollow n part) (hn : n < tier) : ∀ t ∈ part, t.tier? ≠ some tier := by
  intro t ht hsome
  unfold MayFollow at h
  split at h
  · simp [h.tier?_eq_none t ht] at hsome
  · cases h with
    | unsigned h => simp [h.tier?_eq_none t ht] at hsome
    | minus h =>
      rcases List.mem_cons.1 ht with rfl | ht
      · simp only [tier?, Operator.tier, Option.some.injEq] at hsome
        omega
      · simp [h.tier?_eq_none t ht] at hsome

theorem splitAtTier?_further (hf : IsFurther run) (hle : ∀ t ∈ run, ∀ n, t.tier? = some n → n ≤ tier)
    (h : splitAtTier? tier run = some s) : IsFurther s.left ∧ IsSentence s.right := by
  induction hf generalizing s with
  | nil => cases h
  | @cons op loc n part rest ht hp hr ih =>
    rw [splitAtTier?] at h
    split at h
    · cases h
      exact ⟨.nil, part, rest, rfl, hp.isSigned, hr⟩
    · next hne =>
      have hn : n < tier := by
        refine lt_of_le_of_ne (hle _ List.mem_cons_self n ht) ?_
        rintro rfl
        exact hne ht
      rw [splitAtTier?_append (hp.tier?_ne hn), Option.map_map] at h
      obtain ⟨s', hs', rfl⟩ := Option.map_eq_some_iff.1 h
      obtain ⟨hleft, hright⟩ := ih (fun t ht => hle t (by simp [ht])) hs'
      exact ⟨.cons ht hp hleft, hright⟩

theorem IsSentence.of_split? (h : IsSentence (first :: rest)) (hs : split? first rest = some s) :
    IsSentence s.left ∧ IsSentence s.right := by
  obtain ⟨part, further, hrun, hp, hf⟩ := h
  obtain ⟨t, tail, rfl, htail⟩ := hp.eq_cons
  rw [List.cons_append, List.cons.injEq] at hrun
  obtain ⟨rfl, rfl⟩ := hrun
  obtain ⟨tier, _, hs', rfl, hle⟩ := loosest_of_split? hs
  rw [splitAtTier?_append fun t ht => by simp [htail t ht], Option.map_eq_some_iff] at hs'
  obtain ⟨s', hs', rfl⟩ := hs'
  obtain ⟨hleft, hright⟩ := splitAtTier?_further hf (fun t ht => hle t (by simp [ht])) hs'
  exact ⟨⟨first :: tail, s'.left, rfl, hp, hleft⟩, hright⟩

/-- A sentence that is not split has no binary operators. -/
theorem IsSentence.isSigned (h : IsSentence (first :: rest)) (hno : ∀ t ∈ rest, t.tier? = none) :
    IsSigned (first :: rest) := by
  obtain ⟨part, further, hrun, hp, hf⟩ := h
  cases hf with
  | nil => rwa [hrun, List.append_nil]
  | cons ht _ _ =>
    obtain ⟨t, tail, rfl, -⟩ := hp.eq_cons
    rw [List.cons_append, List.cons.injEq] at hrun
    obtain ⟨rfl, rfl⟩ := hrun
    cases ht.symm.trans (hno (operator _ _) (List.mem_append_right _ List.mem_cons_self))

theorem IsNegation.ends (h : IsNegation run) : ∃ e, [Term.operand e] <:+ run := by
  induction h with
  | @operand e => exact ⟨e, List.suffix_rfl⟩
  | not _ ih =>
    obtain ⟨e, he⟩ := ih
    exact ⟨e, he.trans (List.suffix_cons ..)⟩

theorem IsSigned.ends (h : IsSigned run) : ∃ e, [operand e] <:+ run := by
  cases h with
  | unsigned h => exact h.ends
  | minus h =>
    obtain ⟨e, he⟩ := h.ends
    exact ⟨e, he.trans (List.suffix_cons ..)⟩

theorem IsSentence.ends (h : IsSentence run) : ∃ e, [operand e] <:+ run := by
  obtain ⟨part, further, rfl, hp, hf⟩ := h
  induction hf generalizing part with
  | nil => simpa using hp.ends
  | cons _ hp' _ ih =>
    obtain ⟨e, he⟩ := ih _ hp'.isSigned
    exact ⟨e, he.trans ((List.suffix_cons ..).trans (List.suffix_append ..))⟩

/-! ## Resolution -/

theorem IsSentence.append {left right : List Term} {op : Operator} {loc : Location} (hl : IsSentence left)
    (hr : IsSentence right) (ht : op.tier = some tier) (hle : ∀ t ∈ right, ∀ n, t.tier? = some n → n ≤ tier) :
    IsSentence (left ++ operator op loc :: right) := by
  obtain ⟨part, further, rfl, hp, hf⟩ := hl
  obtain ⟨part', further', rfl, hp', hf'⟩ := hr
  have hmay : MayFollow tier part' := by
    rw [MayFollow]
    split
    · next h0 =>
      cases hp' with
      | unsigned h => exact h
      | minus h => cases h0 ▸ hle _ (List.mem_append_left _ List.mem_cons_self) 1 rfl
    · exact hp'
  refine ⟨part, further ++ operator op loc :: (part' ++ further'), List.append_assoc .., hp, ?_⟩
  induction hf with
  | nil => exact .cons ht hmay hf'
  | cons ht' hp' _ ih =>
    rw [List.cons_append, List.append_assoc]
    exact .cons ht' hp' ih

theorem IsSigned.cons {op : Operator} {loc : Location} (h : IsSigned run) (hop : op.isUnary)
    (hno : ∀ t ∈ run, t.tier? = none) : IsSigned (operator op loc :: run) := by
  cases h with
  | minus => cases hno _ List.mem_cons_self
  | unsigned h =>
    cases op <;> simp only [Operator.isUnary, reduceCtorEq] at hop
    · exact .minus h
    · exact .unsigned (.not h)

theorem mem_of_mem_infixes {afterOperand : Bool} {o : Operator} (h : o ∈ infixes afterOperand run) :
    ∃ loc, operator o loc ∈ run := by
  fun_induction infixes afterOperand run with
  | case1 => cases h
  | case2 _ e rest ih =>
    obtain ⟨loc, hloc⟩ := ih h
    exact ⟨loc, List.mem_cons_of_mem _ hloc⟩
  | case3 op loc rest ih =>
    rcases List.mem_cons.1 h with rfl | h
    · exact ⟨loc, List.mem_cons_self⟩
    · obtain ⟨loc, hloc⟩ := ih h
      exact ⟨loc, List.mem_cons_of_mem _ hloc⟩
  | case4 op loc rest ih =>
    obtain ⟨loc, hloc⟩ := ih h
    exact ⟨loc, List.mem_cons_of_mem _ hloc⟩

/-- The binary operators of a tree stand behind the first of its terms. -/
theorem mem_of_mem_binaries {c : Combination} {o : Operator} (hc : c.terms = first :: rest) (ho : o ∈ c.binaries) :
    ∃ loc, operator o loc ∈ rest := by
  rw [c.binaries_eq, hc] at ho
  cases first with
  | operand e => exact mem_of_mem_infixes ho
  | operator op loc => exact mem_of_mem_infixes ho

/-- Shaped trees of the two sides of a split make up a shaped tree. -/
theorem shaped_of_splitAtTier? {left right : Combination} (hs : splitAtTier? tier rest = some s)
    (hle : ∀ t ∈ rest, ∀ n, t.tier? = some n → n ≤ tier) (hl : left.Shaped) (hlt : left.terms = first :: s.left)
    (hr : right.Shaped) (hrt : right.terms = s.right) : (Combination.binary s.loc s.op left right).Shaped := by
  obtain ⟨hrest, ht⟩ := splitAtTier?_spec hs
  have hbinary : ∀ c : Combination, c.Shaped → ∀ o ∈ c.binaries, ∀ loc, operator o loc ∈ rest →
      ∃ n ≤ tier, o.tier = some n := by
    intro c hc o ho loc hmem
    obtain ⟨n, hn⟩ := hc.tier_of_mem ho
    exact ⟨n, hle _ hmem n hn, hn⟩
  refine .binary ht hl hr (fun o ho => ?_) fun o ho => ?_
  · obtain ⟨loc, hmem⟩ := mem_of_mem_binaries hlt ho
    obtain ⟨n, hn, hon⟩ := hbinary left hl o ho loc (by simp [hrest, hmem])
    refine ⟨n, lt_of_le_of_ne hn ?_, hon⟩
    rintro rfl
    exact tier_of_mem_left hs _ hmem hon
  · rw [right.binaries_eq, hrt] at ho
    obtain ⟨loc, hmem⟩ := mem_of_mem_infixes ho
    exact hbinary right hr o (by rwa [right.binaries_eq, hrt]) loc (by simp [hrest, hmem])

/-- What is resolved is a sentence, and its tree is a shaped one; what is not is refused as a syntax error. -/
theorem resolve_yields_shaped (hne : run ≠ []) (hs : Separated run) :
    Yields (fun e => IsSentence run ∧ ∃ c : Combination, c.expr = e ∧ c.terms = run ∧ c.Shaped) (resolve run) := by
  fun_induction resolve run with
  | case1 => exact absurd rfl hne
  | case2 first rest op loc hl => exact ⟨_, _, rfl⟩
  | case3 first e hl =>
    obtain rfl : first = operand e := by simpa using hl
    exact ⟨⟨_, [], rfl, .unsigned .operand, .nil⟩, .operand e, rfl, rfl, .operand⟩
  | case4 first rest e hl hr s hsplit hlt hgt ihl ihr =>
    obtain ⟨hrun, hleft⟩ := split?_spec hsplit
    rw [hrun] at hs ⊢
    have hchain := List.isChain_append.1 hs
    refine (ihl hleft hchain.1).bind fun lhs hlhs => ?_
    refine (ihr (right_ne_nil_of_split? hsplit hl) hchain.2.1.tail).bind fun rhs hrhs => ?_
    obtain ⟨hsl, left, rfl, hltree, hlshaped⟩ := hlhs
    obtain ⟨hsr, right, rfl, hrtree, hrshaped⟩ := hrhs
    obtain ⟨tier, s, hs', rfl, hle⟩ := loosest_of_split? hsplit
    obtain ⟨hrest, ht⟩ := splitAtTier?_spec hs'
    exact ⟨hsl.append hsr ht fun t hmem => hle t (by simp [hrest, hmem]), .binary s.loc s.op left right, rfl,
      by rw [Combination.terms, hltree, hrtree], shaped_of_splitAtTier? hs' hle hlshaped hltree hrshaped hrtree⟩
  | case5 e op loc rest hsplit hu hr hl ih =>
    have hno := tier?_of_split?_eq_none hsplit
    refine (ih hr hs.tail).bind fun e he => ?_
    obtain ⟨hsentence, part, rfl, rfl, hshaped⟩ := he
    have hbinaries : part.binaries = [] := by
      refine List.eq_nil_iff_forall_not_mem.2 fun o ho => ?_
      obtain ⟨n, hn⟩ := hshaped.tier_of_mem ho
      obtain ⟨loc, hmem⟩ := mem_of_mem_infixes (part.binaries_eq ▸ ho)
      cases hn.symm.trans (hno _ hmem)
    have hsigned : IsSigned part.terms := by
      obtain ⟨first, tail, hterms⟩ := List.exists_cons_of_ne_nil hr
      rw [hterms] at hsentence hno ⊢
      exact hsentence.isSigned fun t ht => hno t (List.mem_cons_of_mem _ ht)
    exact ⟨⟨_, [], (List.append_nil _).symm, hsigned.cons hu hno, .nil⟩, .unary loc op part, rfl, rfl,
      .unary hshaped hbinaries⟩
  | case6 => exact ⟨_, _, rfl⟩
  | case7 => exact ⟨_, _, rfl⟩
  | case8 rest e hr e' hsplit hno hl =>
    cases rest with
    | nil => exact absurd rfl hr
    | cons t rest =>
      cases t with
      | operand e'' => exact absurd ⟨rfl, rfl⟩ (List.isChain_cons_cons.1 hs).1
      | operator op loc => exact (hno op loc rest hsplit rfl HEq.rfl).elim

theorem resolve_of_isSentence (h : IsSentence run) : ∃ e, resolve run = .ok e := by
  fun_induction resolve run with
  | case1 =>
    obtain ⟨e, he⟩ := h.ends
    simp at he
  | case2 first rest op loc hl =>
    obtain ⟨e, front, hrun⟩ := h.ends
    simp [← hrun] at hl
  | case3 first e hl => exact ⟨e, rfl⟩
  | case4 first rest e hl hr s hsplit hlt hgt ihl ihr =>
    obtain ⟨hleft, hright⟩ := h.of_split? hsplit
    obtain ⟨lhs, hlhs⟩ := ihl hleft
    obtain ⟨rhs, hrhs⟩ := ihr hright
    exact ⟨.binary s.loc s.op lhs rhs, by rw [hlhs, hrhs]; rfl⟩
  | case5 e op loc rest hsplit hu hr hl ih =>
    have hrest : IsNegation rest := by
      cases h.isSigned (tier?_of_split?_eq_none hsplit) with
      | unsigned h =>
        cases h with
        | not h => exact h
      | minus h => exact h
    obtain ⟨operand, hoperand⟩ := ih ⟨rest, [], (List.append_nil _).symm, .unsigned hrest, .nil⟩
    exact ⟨.unary loc op operand, by rw [hoperand]; rfl⟩
  | case6 e op loc rest hsplit hu hr hl =>
    cases h.isSigned (tier?_of_split?_eq_none hsplit) with
    | unsigned h =>
      cases h with
      | not => exact absurd rfl hu
    | minus => exact absurd rfl hu
  | case7 e e' op loc rest hsplit hr hl =>
    cases h.isSigned (tier?_of_split?_eq_none hsplit) with
    | unsigned h => cases h
  | case8 rest e hr e' hsplit hno hl =>
    cases h.isSigned (tier?_of_split?_eq_none hsplit) with
    | unsigned h =>
      cases h with
      | operand => exact absurd rfl hr

/-- A run without neighbouring operands is resolved just if it is a sentence, and is refused as a syntax error if it is
not. Its tree reads like the run and is shaped, and no other tree is both. -/
theorem resolve_exact (run : List Term) (hne : run ≠ []) (hs : Separated run) :
    ((∃ e, resolve run = .ok e) ↔ IsSentence run) ∧
    (¬ IsSentence run → ∃ cause loc, resolve run = .error (.parse cause loc)) ∧
    ∀ e, resolve run = .ok e → ∃ c : Combination, (c.expr = e ∧ c.terms = run ∧ c.Shaped) ∧
      ∀ c' : Combination, c'.terms = run → c'.Shaped → c' = c := by
  have hyields := resolve_yields_shaped hne hs
  refine ⟨⟨?_, resolve_of_isSentence⟩, fun hno => ?_, fun e he => ?_⟩
  · rintro ⟨e, he⟩
    rw [he] at hyields
    exact hyields.1
  · cases hr : resolve run with
    | ok e =>
      rw [hr] at hyields
      exact absurd hyields.1 hno
    | error fault =>
      rw [hr] at hyields
      obtain ⟨cause, loc, rfl⟩ := hyields
      exact ⟨cause, loc, rfl⟩
  · rw [he] at hyields
    obtain ⟨c, hexpr, hterms, hshaped⟩ := hyields.2
    exact ⟨c, ⟨hexpr, hterms, hshaped⟩, fun c' hterms' hshaped' => hshaped'.unique hshaped (hterms'.trans hterms.symm)⟩

/-- `a - b + -c * !d` : the signs go with their operands, and the looser operators lean to the right. -/
theorem resolve_exact_signs :
    let tree : Combination := .binary {} .subtract (.operand (.name {} "a")) (.binary {} .add (.operand (.name {} "b"))
      (.binary {} .multiply (.unary {} .subtract (.operand (.name {} "c")))
        (.unary {} .not (.operand (.name {} "d")))))
    tree.terms = [.operand (.name {} "a"), .operator .subtract {}, .operand (.name {} "b"), .operator .add {},
      .operator .subtract {}, .operand (.name {} "c"), .operator .multiply {}, .operator .not {},
      .operand (.name {} "d")] ∧
    tree.terms ≠ [] ∧ Separated tree.terms ∧ resolve tree.terms = .ok tree.expr := by
  intro tree
  have hne : tree.terms ≠ [] := tree.terms_ne_nil
  have hs : Separated tree.terms := by
    simp [tree, Combination.terms, Separated, isOperand]
  have hsentence : IsSentence tree.terms :=
    ⟨_, _, rfl, .unsigned .operand, @IsFurther.cons .subtract _ _ [_] _ rfl (.unsigned .operand)
      (@IsFurther.cons .add _ _ [_, _] _ rfl (.minus .operand)
        (@IsFurther.cons .multiply _ _ [_, _] _ rfl (.not .operand) .nil))⟩
  have hshaped : tree.Shaped := by
    refine .binary rfl .operand (.binary rfl .operand (.binary rfl (.unary .operand rfl) (.unary .operand rfl) ?_ ?_)
      ?_ ?_) ?_ ?_ <;> simp [Combination.binaries, Operator.tier]
  obtain ⟨e, he⟩ := (resolve_exact tree.terms hne hs).1.2 hsentence
  obtain ⟨c, ⟨rfl, -, -⟩, hunique⟩ := (resolve_exact tree.terms hne hs).2.2 e he
  refine ⟨rfl, hne, hs, ?_⟩
  rw [he, hunique tree rfl hshaped]

end Term
end FrontEnd
