import FrontEnd.Proofs.Outline
import FrontEnd.Proofs.Syntax.Spelling
import FrontEnd.Syntax.Dump

/-!
# Headings of tree dumps

A heading starts with a word for the kind of what it stands for, a blank sets off what that holds, and ` : ` the type
noted for it.

* `HeadingKind`, `HeadingKind.heading` : the kinds of headings, and a heading of a kind;
  `HeadingKind.word_append_inj` : the first word of a heading says its kind;
* `Literal.Legible`, `IsName`, `Signature.Legible` : what a heading shows without a doubt;
  `Literal.content_inj`, `Signature.content_inj` : literals and signatures are told apart by what is shown of them;
* `Literal.oneLine_content`, `Signature.oneLine_content` : no line ends in what is shown unless one ends in a name, a
  character or a string;
* `Clear` : contents that do not look as if a type followed;
  `Notes.annotate_inj` : a heading with clear contents shows whether a type is noted, and which.
-/

namespace FrontEnd

/-! ## Kinds -/

/-- What a heading stands for: a node of the tree or a function of a block. -/
inductive HeadingKind where
  | literal (ty : Ty)
  | name | unary | binary | letIn | branch | whileLoop | forLoop | block | call | funDecl
  | function
deriving DecidableEq

namespace HeadingKind
variable {k k' : HeadingKind} {c c' : Option Text} {t t' : Text}

/-- The word that a heading starts with. -/
def word : HeadingKind → Text
  | literal .str => "StringLiteral"
  | literal ty => ty.name ++ "Literal"
  | name => "Name"
  | unary => "Unary"
  | binary => "Binary"
  | letIn => "Let"
  | branch => "IfExpr"
  | whileLoop => "WhileExpr"
  | forLoop => "ForExpr"
  | block => "Block"
  | call => "Call"
  | funDecl => "FunDecl"
  | function => "Function"

/-- How contents are set off from the word, if there are any. -/
def shown : Option Text → Text
  | none => []
  | some content => ' ' :: content

/-- A heading with these contents. -/
def heading (k : HeadingKind) (content : Option Text) : Text := k.word ++ shown content

/-- All kinds of headings. -/
def all : List HeadingKind :=
  [.int, .float, .bool, .char, .str, .unit, .any].map literal ++
    [name, unary, binary, letIn, branch, whileLoop, forLoop, block, call, funDecl, function]

theorem mem_all (k : HeadingKind) : k ∈ all := by
  cases k with
  | literal ty => cases ty <;> decide
  | _ => decide

theorem word_inj (h : k.word = k'.word) : k = k' := by
  have hall : ∀ k ∈ all, ∀ k' ∈ all, k.word = k'.word → k = k' := by decide
  exact hall k (mem_all k) k' (mem_all k') h

theorem blank_notMem_word (k : HeadingKind) : ' ' ∉ k.word := by
  have hall : ∀ k ∈ all, ' ' ∉ k.word := by decide
  exact hall k (mem_all k)

theorem shown_inj {content content' : Option Text} (h : shown content = shown content') : content = content' := by
  cases content with
  | none =>
    cases content' with
    | none => rfl
    | some => cases h
  | some =>
    cases content' with
    | none => cases h
    | some => rw [(List.cons.inj h).2]

/-- The text is empty or starts with a blank. -/
def SetOff (t : Text) : Prop := ∀ c ∈ t.head?, c = ' '

theorem setOff_shown_append {content : Option Text} (h : SetOff t) : SetOff (shown content ++ t) := by
  cases content with
  | none => exact h
  | some => exact fun _ hc => (Option.some.inj hc).symm

theorem setOff_shown (content : Option Text) : SetOff (shown content) := by
  have hnil : SetOff [] := fun _ hc => by cases hc
  have h : SetOff (shown content ++ []) := setOff_shown_append hnil
  rwa [List.append_nil] at h

/-- The first word of a heading says its kind. -/
theorem word_append_inj (ht : SetOff t) (ht' : SetOff t') (h : k.word ++ t = k'.word ++ t') : k = k' ∧ t = t' := by
  have hword : ∀ k : HeadingKind, ∀ c ∈ k.word, (c != ' ') = true := fun k c hc =>
    bne_iff_ne.2 fun heq => k.blank_notMem_word (heq ▸ hc)
  obtain ⟨hk, rfl⟩ := Text.front_inj (hword k) (hword k') (fun c hc => by simp [ht c hc])
    (fun c hc => by simp [ht' c hc]) h
  exact ⟨word_inj hk, rfl⟩

end HeadingKind

/-! ## Types behind a heading -/

theorem Ty.name_inj {t t' : Ty} (h : t.name = t'.name) : t = t' := by
  cases t <;> cases t' <;> first | rfl | exact absurd h (by decide)

theorem Ty.name_isAlpha (t : Ty) : ∀ c ∈ t.name, c.isAlpha := by
  cases t <;> exact List.all_eq_true.1 rfl

theorem Ty.notMem_name {c : Char} (t : Ty) (hc : c.isAlpha = false) : c ∉ t.name := fun h =>
  absurd (t.name_isAlpha c h) (by simp [hc])

/-- How a type is shown, if one is noted. -/
def typeSuffix : Option Ty → Text
  | none => []
  | some t => " : " ++ t.name

theorem setOff_typeSuffix (o : Option Ty) : HeadingKind.SetOff (typeSuffix o) := by
  cases o with
  | none => rintro c ⟨⟩
  | some t => exact fun _ hc => (Option.some.inj hc).symm

theorem oneLine_typeSuffix (o : Option Ty) : '\n' ∉ typeSuffix o := by
  cases o with
  | none => exact List.not_mem_nil
  | some t => simp [typeSuffix, t.notMem_name (c := '\n') (by decide)]

theorem Notes.annotate_eq (n : Notes) (p : Path) (text : Text) :
    n.annotate p text = text ++ typeSuffix (n.typeAt? p) := by
  unfold annotate
  cases n.typeAt? p with
  | none => exact (List.append_nil _).symm
  | some t => exact List.append_assoc ..

/-- The text does not look as if a type stood behind it: it holds no colon, or does not end in a letter. -/
def Clear (text : Text) : Prop := ':' ∉ text ∨ ∃ front q, text = front ++ [q] ∧ q.isAlpha = false

theorem Clear.ne_annotated {text : Text} (h : Clear text) (s : Text) (t : Ty) : text ≠ s ++ typeSuffix (some t) := by
  intro heq
  rcases h with hnone | ⟨front, q, rfl, hq⟩
  · exact hnone (by simp [heq, typeSuffix])
  · have hlast : some q = t.name.getLast?.or (s ++ [' ', ':', ' ']).getLast? := by
      have hlast := congrArg List.getLast? heq
      rwa [List.getLast?_concat, typeSuffix, ← List.append_assoc, List.getLast?_append] at hlast
    cases hname : t.name.getLast? with
    | none => cases t <;> cases hname
    | some c =>
      obtain rfl : q = c := by simpa [hname] using hlast
      exact t.notMem_name hq (List.mem_of_getLast? hname)

/-- A heading is as clear as what it holds. -/
theorem HeadingKind.clear_heading (k : HeadingKind) {content : Option Text} (hc : ∀ c ∈ content, Clear c) :
    Clear (k.heading content) := by
  have hword : ∀ k ∈ all, ':' ∉ k.word := by decide
  have hk := hword k (mem_all k)
  cases content with
  | none => exact .inl (by simpa [heading, shown] using hk)
  | some content =>
    rcases hc content rfl with hnone | ⟨front, q, rfl, hq⟩
    · exact .inl (by simp [heading, shown, hk, hnone])
    · exact .inr ⟨k.heading (some front), q, by simp [heading, shown], hq⟩

/-- A clear text shows whether a type stands behind it, and which. -/
theorem Clear.typeSuffix_inj {text text' : Text} {o o' : Option Ty} (hc : Clear text) (hc' : Clear text')
    (h : text ++ typeSuffix o = text' ++ typeSuffix o') : text = text' ∧ o = o' := by
  cases o with
  | none =>
    rw [typeSuffix, List.append_nil] at h
    cases o' with
    | none => exact ⟨by rwa [typeSuffix, List.append_nil] at h, rfl⟩
    | some t' => exact absurd h (hc.ne_annotated _ t')
  | some t =>
    cases o' with
    | none =>
      rw [typeSuffix.eq_1, List.append_nil] at h
      exact absurd h.symm (hc'.ne_annotated _ t)
    | some t' =>
      have hsplit : ∀ (s : Text) (t : Ty), s ++ typeSuffix (some t) = (s ++ [' ', ':']) ++ ' ' :: t.name := by
        simp [typeSuffix]
      rw [hsplit, hsplit] at h
      obtain ⟨htext, hname⟩ := Text.behind_inj (t.notMem_name (by decide)) (t'.notMem_name (by decide)) h
      exact ⟨List.append_cancel_right htext, congrArg some (Ty.name_inj hname)⟩

namespace Notes
variable {n n' : Notes} {p p' : Path} {k k' : HeadingKind} {content content' : Option Text}

/-- A heading with clear contents shows its kind, its contents, and whether a type is noted and which. -/
theorem annotate_inj (hc : ∀ c ∈ content, Clear c) (hc' : ∀ c ∈ content', Clear c)
    (h : n.annotate p (k.heading content) = n'.annotate p' (k'.heading content')) :
    k = k' ∧ content = content' ∧ n.typeAt? p = n'.typeAt? p' := by
  rw [annotate_eq, annotate_eq] at h
  obtain ⟨hheading, htype⟩ := (k.clear_heading hc).typeSuffix_inj (k'.clear_heading hc') h
  obtain ⟨hk, hshown⟩ :=
    HeadingKind.word_append_inj (HeadingKind.setOff_shown _) (HeadingKind.setOff_shown _) hheading
  exact ⟨hk, HeadingKind.shown_inj hshown, htype⟩

/-- A heading shows its kind, whether a type stands behind it or not. -/
theorem kind_eq_of_annotate (h : n.annotate p (k.heading content) = k'.heading content') : k = k' := by
  rw [annotate_eq, HeadingKind.heading, HeadingKind.heading, List.append_assoc] at h
  exact (HeadingKind.word_append_inj (HeadingKind.setOff_shown_append (setOff_typeSuffix _))
    (HeadingKind.setOff_shown _) h).1

end Notes

/-- Headings of one line start with a word. -/
theorem HeadingKind.plain_heading_append (k : HeadingKind) {content : Option Text} {rest : Text}
    (hc : ∀ c ∈ content, '\n' ∉ c) (hr : '\n' ∉ rest) : Outline.Plain (k.heading content ++ rest) := by
  have hword : ∀ k ∈ all, '\n' ∉ k.word ∧ k.word ≠ [] := by decide
  obtain ⟨hline, hne⟩ := hword k (mem_all k)
  constructor
  · cases content with
    | none => simp [heading, shown, hline, hr]
    | some content => simp [heading, shown, hline, hr, hc content rfl]
  · intro hstart
    obtain ⟨c, cs, hcons⟩ := List.exists_cons_of_ne_nil hne
    have hblank := k.blank_notMem_word
    rw [heading, hcons, List.cons_append, List.cons_append, List.head?_cons, Option.some.injEq] at hstart
    exact hblank (by simp [hcons, hstart])

/-! ## What headings hold -/

/-- Whether a word can be a name in a tree: an identifier, or the name of the counting variable. -/
def IsName (id : Text) : Prop := IsIdentifier id ∨ id = Expr.countingVariable

theorem IsName.notMem {id : Text} {c : Char} (h : IsName id) (hc : Scan.isIdentRest c = false) (hpoint : c ≠ '.') :
    c ∉ id := by
  intro hm
  rcases h with ⟨hword, -⟩ | rfl
  · cases id with
    | nil => cases hm
    | cons d ds =>
      simp only [Scan.isWord, Bool.and_eq_true, List.all_eq_true] at hword
      have hrest : Scan.isIdentRest c := by
        rcases List.mem_cons.1 hm with rfl | hm
        · exact Scan.isIdentRest_of_isIdentStart hword.1
        · exact hword.2 c hm
      rw [hc] at hrest
      cases hrest
  · have hall : ∀ c ∈ Expr.countingVariable, Scan.isIdentRest c ∨ c = '.' := by
      simp [Expr.countingVariable, Scan.isIdentRest]
    rcases hall c hm with hrest | rfl
    · rw [hc] at hrest
      cases hrest
    · exact hpoint rfl

namespace Literal

/-- What a heading shows of a literal. -/
def content : Literal → Option Text
  | int n => some (Text.ofInt n)
  | float x => some (x.text Binary64.dumpLayout)
  | bool b => some (if b then "true" else "false")
  | char c => some ['\'', c, '\'']
  | str s => some ('"' :: s ++ ['"'])
  | unit => none

theorem heading_eq (v : Literal) : v.heading = (HeadingKind.literal v.ty).heading v.content := by
  cases v <;> rfl

/-- The text that a literal stands for, if it is a character or a string. -/
def texts : Literal → List Text
  | char c => [[c]]
  | str s => [s]
  | int _ | float _ | bool _ | unit => []

/-- Whether a heading shows just which literal it is: it is no decimal, and no line ends within it. -/
def Legible : Literal → Prop
  | float _ => False
  | char c => c ≠ '\n'
  | str s => '\n' ∉ s
  | int _ | bool _ | unit => True

end Literal

theorem Text.ofInt_chars (n : Int) : ∀ c ∈ ofInt n, c.isDigit ∨ c = '-' := by
  intro c hc
  cases n with
  | ofNat n => exact .inl (isDigit_of_mem_ofNat hc)
  | negSucc n =>
    rcases List.mem_cons.1 hc with rfl | hc
    · exact .inr rfl
    · exact .inl (isDigit_of_mem_ofNat hc)

theorem Text.oneLine_ofNat (n : Nat) : '\n' ∉ ofNat n := fun h => absurd (isDigit_of_mem_ofNat h) (by decide)

namespace Binary64

theorem oneLine_fractionText {digits : Text} (h : '\n' ∉ digits) : '\n' ∉ fractionText digits := by
  unfold fractionText
  split
  · exact List.not_mem_nil
  · intro hm
    rcases List.mem_cons.1 hm with heq | hm
    · cases heq
    · exact h (List.mem_reverse.1 ((List.dropWhile_sublist _).subset (List.mem_reverse.1 hm)))

theorem oneLine_exponentText (width : Nat) (x : Int) : '\n' ∉ exponentText width x := by
  have hsign : (if x < 0 then '-' else '+') ≠ '\n' := by split <;> decide
  simp [exponentText, Text.oneLine_ofNat, hsign.symm]

theorem oneLine_magnitudeText (layout : Layout) (num den : Nat) : '\n' ∉ magnitudeText layout num den := by
  have htake : ∀ n k, '\n' ∉ (Text.ofNat n).take k := fun n k h => Text.oneLine_ofNat n (List.mem_of_mem_take h)
  have hdrop : ∀ n k, '\n' ∉ (Text.ofNat n).drop k := fun n k h => Text.oneLine_ofNat n (List.mem_of_mem_drop h)
  unfold magnitudeText
  generalize nearestDigits layout.significant num den = nearest
  obtain ⟨n, x⟩ := nearest
  dsimp only
  split
  · split
    · simpa [htake] using oneLine_fractionText (hdrop _ _)
    · simpa using oneLine_fractionText (by simp [Text.oneLine_ofNat])
  · have hfraction := oneLine_fractionText (hdrop n 1)
    rw [List.mem_append, List.mem_append]
    rintro ((h | h) | h)
    · exact htake n 1 h
    · exact hfraction h
    · exact oneLine_exponentText _ _ h

theorem oneLine_text (x : Binary64) : '\n' ∉ x.text dumpLayout := by
  have hmagnitude : '\n' ∉ (if x.isNaN then dumpLayout.notANumber else if x.isInfinite then dumpLayout.infinity
      else if x.magnitudeBits = 0 then "0" else magnitudeText dumpLayout x.ratio.1 x.ratio.2 : Text) := by
    split
    · decide
    split
    · decide
    split
    · decide
    · exact oneLine_magnitudeText _ _ _
  unfold text
  dsimp only
  split
  · exact List.not_mem_cons_of_ne_of_not_mem (by decide) hmagnitude
  · exact hmagnitude

end Binary64

theorem Text.ofNat_inj {m n : Nat} (h : ofNat m = ofNat n) : m = n := by
  rw [← digitsValue_ofNat m, h, digitsValue_ofNat]

theorem Text.ofNat_ne_minus {m : Nat} {t : Text} : ofNat m ≠ '-' :: t := by
  intro h
  have hminus : '-'.isDigit := isDigit_of_mem_ofNat (h ▸ List.mem_cons_self)
  cases hminus

theorem Text.ofInt_inj {m n : Int} (h : ofInt m = ofInt n) : m = n := by
  cases m with
  | ofNat m =>
    cases n with
    | ofNat n => rw [ofNat_inj h]
    | negSucc n => exact absurd h ofNat_ne_minus
  | negSucc m =>
    cases n with
    | ofNat n => exact absurd h.symm ofNat_ne_minus
    | negSucc n => rw [Nat.succ.inj (ofNat_inj (List.cons.inj h).2)]

namespace Literal

theorem oneLine_content {v : Literal} (h : ∀ t ∈ v.texts, '\n' ∉ t) : ∀ c ∈ v.content, '\n' ∉ c := by
  cases v with
  | int n =>
    rintro c ⟨⟩ hm
    simpa using Text.ofInt_chars n _ hm
  | float x =>
    rintro c ⟨⟩
    exact x.oneLine_text
  | bool b =>
    rintro c ⟨⟩
    cases b
    · decide
    · decide
  | char x =>
    have hx : '\n' ∉ [x] := h [x] List.mem_cons_self
    rintro c ⟨⟩
    simpa using hx
  | str s =>
    have hs : '\n' ∉ s := h s List.mem_cons_self
    rintro c ⟨⟩
    simp [hs]
  | unit => rintro c ⟨⟩

theorem Legible.oneLine {v : Literal} (hv : v.Legible) : ∀ t ∈ v.texts, '\n' ∉ t := by
  cases v with
  | char x =>
    have hx : x ≠ '\n' := hv
    exact List.forall_mem_singleton.2 (by simpa using hx.symm)
  | str s => exact List.forall_mem_singleton.2 hv
  | int | float | bool | unit => exact List.forall_mem_nil _

theorem clear_content {v : Literal} (hv : v.Legible) : ∀ c ∈ v.content, Clear c := by
  cases v with
  | int n =>
    rintro c ⟨⟩
    exact .inl fun h => by simpa using Text.ofInt_chars n _ h
  | float x => cases hv
  | bool b =>
    rintro c ⟨⟩
    cases b
    · exact .inl (by decide)
    · exact .inl (by decide)
  | char x =>
    rintro c ⟨⟩
    exact .inr ⟨['\'', x], '\'', rfl, rfl⟩
  | str s =>
    rintro c ⟨⟩
    exact .inr ⟨'"' :: s, '"', rfl, rfl⟩
  | unit => rintro c ⟨⟩

theorem content_inj {v v' : Literal} (hv : v.Legible) (ht : v.ty = v'.ty) (hc : v.content = v'.content) : v = v' := by
  cases v <;> cases v' <;> try cases ht
  case int n n' => rw [Text.ofInt_inj (Option.some.inj hc)]
  case float => cases hv
  case bool b b' => cases b <;> cases b' <;> first | rfl | exact absurd hc (by decide)
  case char c c' => rw [(List.cons.inj (List.cons.inj (Option.some.inj hc)).2).1]
  case str s s' => rw [List.append_cancel_right (List.cons.inj (Option.some.inj hc)).2]
  case unit => rfl

end Literal

theorem Operator.spelling_inj {o o' : Operator} (h : o.spelling = o'.spelling) : o = o' := by
  cases o <;> cases o' <;> first | rfl | exact absurd h (by decide)

theorem Operator.oneLine_spelling (o : Operator) : '\n' ∉ o.spelling := by
  cases o <;> decide

theorem Operator.clear_spelling (o : Operator) : Clear o.spelling := by
  cases o <;> exact .inl (by decide)

theorem IsName.oneLine {id : Text} (h : IsName id) : '\n' ∉ id := h.notMem (by decide) (by decide)

theorem IsName.clear {id : Text} (h : IsName id) : Clear id := .inl (h.notMem (by decide) (by decide))

/-! ### Signatures -/

theorem Text.joined_cons (sep p : Text) (ps : List Text) : joined sep (p :: ps) = p ++ ps.flatMap (sep ++ ·) := by
  induction ps generalizing p with
  | nil => rw [joined_singleton, List.flatMap_nil, List.append_nil]
  | cons q qs ih => rw [joined_cons_cons, ih, List.flatMap_cons, List.append_assoc]

theorem Text.notMem_joined {c : Char} {sep : Text} {ps : List Text} (hsep : c ∉ sep) (hp : ∀ p ∈ ps, c ∉ p) :
    c ∉ joined sep ps := by
  cases ps with
  | nil => simp [joined, List.intercalate]
  | cons p ps =>
    obtain ⟨hfirst, hrest⟩ := List.forall_mem_cons.1 hp
    rw [joined_cons, List.mem_append, List.mem_flatMap]
    rintro (hm | ⟨q, hq, hm⟩)
    · exact hfirst hm
    · exact (List.mem_append.1 hm).elim hsep (hrest q hq)

section
variable {ps qs : List Text} (hp : ∀ p ∈ ps, ',' ∉ p) (hq : ∀ q ∈ qs, ',' ∉ q)

theorem Text.pieces_front {p q : Text} (hp : ',' ∉ p) (hq : ',' ∉ q)
    (h : p ++ ps.flatMap (", ".toList ++ ·) = q ++ qs.flatMap (", ".toList ++ ·)) :
    p = q ∧ ps.flatMap (", ".toList ++ ·) = qs.flatMap (", ".toList ++ ·) := by
  have hne : ∀ {s : Text}, ',' ∉ s → ∀ c ∈ s, (c != ',') = true := fun hs c hc =>
    bne_iff_ne.2 fun heq => hs (heq ▸ hc)
  have hstart : ∀ ps : List Text, ∀ c ∈ (ps.flatMap (", ".toList ++ ·)).head?, (c != ',') = false := by
    intro ps
    cases ps with
    | nil => rintro c ⟨⟩
    | cons => rintro c ⟨⟩; rfl
  exact front_inj (hne hp) (hne hq) (hstart ps) (hstart qs) h

include hp hq

theorem Text.pieces_inj (h : ps.flatMap (", ".toList ++ ·) = qs.flatMap (", ".toList ++ ·)) : ps = qs := by
  induction ps generalizing qs with
  | nil =>
    cases qs with
    | nil => rfl
    | cons => cases h
  | cons p ps ih =>
    cases qs with
    | nil => cases h
    | cons q qs =>
      rw [List.flatMap_cons, List.flatMap_cons, List.append_assoc, List.append_assoc] at h
      obtain ⟨rfl, hrest⟩ :=
        pieces_front (hp p List.mem_cons_self) (hq q List.mem_cons_self) (List.append_cancel_left h)
      rw [ih (fun p hm => hp p (.tail _ hm)) (fun q hm => hq q (.tail _ hm)) hrest]

/-- Pieces that are not empty and hold no comma are told apart when they are put together with commas. -/
theorem Text.joined_inj (hne : ∀ p ∈ ps, p ≠ []) (hne' : ∀ q ∈ qs, q ≠ []) (h : joined ", " ps = joined ", " qs) :
    ps = qs := by
  cases ps with
  | nil =>
    cases qs with
    | nil => rfl
    | cons q qs =>
      rw [joined_cons] at h
      exact absurd (List.append_eq_nil_iff.1 h.symm).1 (hne' q List.mem_cons_self)
  | cons p ps =>
    cases qs with
    | nil =>
      rw [joined_cons] at h
      exact absurd (List.append_eq_nil_iff.1 h).1 (hne p List.mem_cons_self)
    | cons q qs =>
      rw [joined_cons, joined_cons] at h
      obtain ⟨rfl, hrest⟩ := pieces_front (hp p List.mem_cons_self) (hq q List.mem_cons_self) h
      rw [pieces_inj (fun p hm => hp p (.tail _ hm)) (fun q hm => hq q (.tail _ hm)) hrest]

end

namespace Signature

/-- Whether the names in a signature are names. -/
structure Legible (s : Signature) : Prop where
  name : IsName s.name
  params : ∀ param ∈ s.params, IsName param.1

/-- How a parameter is shown. -/
def shownParameter (param : Text × Ty) : Text := param.1 ++ ": " ++ param.2.name

/-- What a heading shows of a function with return type `ret`. -/
def content (s : Signature) (ret : Ty) : Text :=
  s.name ++ '(' :: (Text.joined ", " (s.params.map shownParameter) ++ ')' :: (" -> " ++ ret.name))

theorem heading_eq (s : Signature) (ret : Ty) :
    s.heading ret = HeadingKind.function.heading (some (s.content ret)) := by
  have hword : "Function ".toList = HeadingKind.function.word ++ [' '] := rfl
  have hclosing : ") -> ".toList = ')' :: " -> ".toList := rfl
  have hheading : s.heading ret = "Function ".toList ++ s.name ++ ['('] ++
      Text.joined ", " (s.params.map shownParameter) ++ ") -> ".toList ++ ret.name := rfl
  rw [hheading, hword, hclosing]
  simp only [HeadingKind.heading, HeadingKind.shown, content, List.append_assoc, List.cons_append, List.nil_append]

theorem shownParameter_inj {a b : Text × Ty} (ha : IsName a.1) (hb : IsName b.1)
    (h : shownParameter a = shownParameter b) : a = b := by
  have hsplit : ∀ a : Text × Ty, shownParameter a = a.1 ++ ':' :: ' ' :: a.2.name := by simp [shownParameter]
  rw [hsplit, hsplit] at h
  obtain ⟨hname, htype⟩ := Text.before_inj (ha.notMem (by decide) (by decide)) (hb.notMem (by decide) (by decide)) h
  exact Prod.ext hname (Ty.name_inj (List.cons.inj htype).2)

theorem map_shownParameter_inj {ps qs : List (Text × Ty)} (hp : ∀ p ∈ ps, IsName p.1) (hq : ∀ q ∈ qs, IsName q.1)
    (h : ps.map shownParameter = qs.map shownParameter) : ps = qs := by
  induction ps generalizing qs with
  | nil => exact (List.map_eq_nil_iff.1 h.symm).symm
  | cons p ps ih =>
    cases qs with
    | nil => cases h
    | cons q qs =>
      obtain ⟨hhead, htail⟩ := List.cons.inj h
      rw [shownParameter_inj (hp p List.mem_cons_self) (hq q List.mem_cons_self) hhead,
        ih (fun p hm => hp p (.tail _ hm)) (fun q hm => hq q (.tail _ hm)) htail]

theorem notMem_shownParameter {param : Text × Ty} {c : Char} (h : c ∉ param.1) (hc : c.isAlpha = false)
    (hne : c ≠ ':' ∧ c ≠ ' ') : c ∉ shownParameter param := by
  simp [shownParameter, h, hne, param.2.notMem_name hc]

theorem notMem_shownParameters {params : List (Text × Ty)} {c : Char} (h : ∀ param ∈ params, c ∉ param.1)
    (hc : c.isAlpha = false) (hne : c ≠ ':' ∧ c ≠ ' ' ∧ c ≠ ',') :
    c ∉ Text.joined ", " (params.map shownParameter) :=
  Text.notMem_joined (by simp [hne]) (List.forall_mem_map.2 fun param hm =>
    notMem_shownParameter (h param hm) hc ⟨hne.1, hne.2.1⟩)

theorem oneLine_content {s : Signature} (hname : '\n' ∉ s.name) (hparams : ∀ param ∈ s.params, '\n' ∉ param.1)
    (ret : Ty) : '\n' ∉ s.content ret := by
  have hshown := notMem_shownParameters hparams (by decide) (by decide)
  have hret : '\n' ∉ ret.name := ret.notMem_name (by decide)
  simpa [content, hname, hret] using hshown

/-- A heading shows the name, the parameters and the return type of a function. -/
theorem content_inj {s s' : Signature} {ret ret' : Ty} (hs : s.Legible) (hs' : s'.Legible)
    (h : s.content ret = s'.content ret') : s.name = s'.name ∧ s.params = s'.params ∧ ret = ret' := by
  obtain ⟨hname, hrest⟩ := Text.before_inj (hs.name.notMem (by decide) (by decide))
    (hs'.name.notMem (by decide) (by decide)) h
  have hclosing : ∀ {params : List (Text × Ty)}, (∀ param ∈ params, IsName param.1) →
      ')' ∉ Text.joined ", " (params.map shownParameter) := fun hparams =>
    notMem_shownParameters (fun param hm => (hparams param hm).notMem (by decide) (by decide)) (by decide) (by decide)
  obtain ⟨hjoined, hret⟩ := Text.before_inj (hclosing hs.params) (hclosing hs'.params) hrest
  refine ⟨hname, ?_, Ty.name_inj (List.append_cancel_left hret)⟩
  have hpieces : ∀ {params : List (Text × Ty)}, (∀ param ∈ params, IsName param.1) →
      ∀ piece ∈ params.map shownParameter, ',' ∉ piece ∧ piece ≠ [] := by
    intro params hparams piece hm
    obtain ⟨param, hparam, rfl⟩ := List.mem_map.1 hm
    have hname : ',' ∉ param.1 := (hparams param hparam).notMem (by decide) (by decide)
    exact ⟨notMem_shownParameter hname (by decide) (by decide), by simp [shownParameter]⟩
  have hlists := Text.joined_inj (fun p hm => (hpieces hs.params p hm).1) (fun q hm => (hpieces hs'.params q hm).1)
    (fun p hm => (hpieces hs.params p hm).2) (fun q hm => (hpieces hs'.params q hm).2) hjoined
  exact map_shownParameter_inj hs.params hs'.params hlists

end Signature
end FrontEnd
