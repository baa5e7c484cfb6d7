import FrontEnd.Proofs.Syntax.Grammar
import FrontEnd.Syntax.Parser

/-!
# Steps that read a phrase

* `Parse.Accepts` : a step reads what a phrase of the grammar derives, and nothing else; for some steps this is known
  only when certain kinds of tokens follow the phrase;
* `Accepts.bind`, `Accepts.map`, `Accepts.token`, `Accepts.ite`, … : the steps that a step is made of;
* `accepts_literal`, `accepts_parameters`, `accepts_signature`, … : the phrases without expressions.
-/

namespace FrontEnd

/-- `s` with tokens in front of it. -/
def TokenStream.prepend (s : TokenStream) (ts : List Token) : TokenStream := { s with ahead := ts ++ s.ahead }

namespace Parse
open Grammar

theorem kind_prepend (s : TokenStream) (ts : List Token) : (s.prepend ts).kind = front ts s.kind := by
  cases ts <;> rfl

theorem token_one_prepend (rest : TokenStream) (t : Token) (ts : List Token) :
    ((rest.prepend (t :: ts)).token 1).kind = front ts rest.kind := by
  rw [← TokenStream.token_advance, TokenStream.token_zero]
  exact kind_prepend rest ts

theorem front_of_cons {ts : List Token} {kind next : TokenKind} {p : Token → List Token → Prop}
    (h : ∃ t us, ts = t :: us ∧ t.kind = kind ∧ p t us) : front ts next = kind := by
  obtain ⟨t, us, rfl, ht, -⟩ := h
  exact ht

theorem prepend_append (s : TokenStream) (ts us : List Token) : s.prepend (ts ++ us) = (s.prepend us).prepend ts := by
  simp [TokenStream.prepend]

/-- A stream whose next token is not the end. -/
theorem eq_prepend_of_kind_ne {s : TokenStream} (h : s.kind ≠ .endOfInput) : s = s.advance.prepend [s.current] := by
  obtain ⟨ahead, endLoc⟩ := s
  cases ahead with
  | nil => exact absurd rfl h
  | cons t ts => rfl

/-- Wherever what follows is `good`, reading `a` and leaving `rest` is having just the tokens in front of `rest` that
derive `a`. -/
def Accepts {α : Type} {bound : Nat} (good : TokenKind → Prop) (s : TokenStream)
    (derives : List Token → TokenKind → α → Prop) (x : Parse α bound) : Prop :=
  ∀ a rest, good rest.kind →
    ((∃ h, x = .ok ⟨a, rest, h⟩) ↔ ∃ ts, s = rest.prepend ts ∧ derives ts rest.kind a)

namespace Accepts
variable {α β : Type} {m n : Nat} {good mid : TokenKind → Prop} {s : TokenStream}
variable {derives derives' : List Token → TokenKind → α → Prop}

theorem congrAhead {x : Parse α m} (h : Accepts good s derives x)
    (hd : ∀ ts (rest : TokenStream) a, s = rest.prepend ts → good rest.kind →
      (derives ts rest.kind a ↔ derives' ts rest.kind a)) : Accepts good s derives' x := by
  intro a rest hg
  rw [h a rest hg]
  exact exists_congr fun ts => and_congr_right fun hs => hd ts rest a hs hg

theorem congr {x : Parse α m} (h : Accepts good s derives x)
    (hd : ∀ ts next a, front ts next = s.kind → good next → (derives ts next a ↔ derives' ts next a)) :
    Accepts good s derives' x := by
  refine h.congrAhead fun ts rest a hs hg => hd ts rest.kind a ?_ hg
  rw [hs, kind_prepend]

theorem mono {x : Parse α m} (h : Accepts mid s derives x) (hg : ∀ k, good k → mid k) : Accepts good s derives x :=
  fun a rest hr => h a rest (hg _ hr)

theorem pure (a : α) (h : s.size < n) :
    Accepts good s (fun ts _ a' => ts = [] ∧ a' = a) (Pure.pure ⟨a, s, h⟩ : Parse α n) := by
  intro a' rest _
  constructor
  · rintro ⟨h', heq⟩
    cases heq
    exact ⟨[], rfl, rfl, rfl⟩
  · rintro ⟨ts, hs, rfl, rfl⟩
    obtain rfl : s = rest := hs
    exact ⟨h, rfl⟩

theorem error (failure : ParseFailure) : Accepts good s (fun _ _ _ => False) (.error failure : Parse α n) := by
  intro a rest _
  constructor
  · rintro ⟨h, heq⟩
    cases heq
  · rintro ⟨ts, -, ⟨⟩⟩

/-- What is read second decides what may follow what is read first. -/
theorem bindBefore {x : Parse α m} {f : Phrase α m → Parse β n} {derives₂ : α → List Token → TokenKind → β → Prop}
    (hx : Accepts mid s derives x) (hf : ∀ a s₁ h, Accepts good s₁ (derives₂ a) (f ⟨a, s₁, h⟩))
    (hmid : ∀ a ts next b, good next → derives₂ a ts next b → mid (front ts next)) :
    Accepts good s
      (fun ts next b => ∃ us vs a, ts = us ++ vs ∧ derives us (front vs next) a ∧ derives₂ a vs next b) (x >>= f) := by
  intro b rest hg
  constructor
  · rintro ⟨h, hrun⟩
    cases hx' : x with
    | error failure =>
      rw [hx'] at hrun
      cases hrun
    | ok phrase =>
      obtain ⟨a, s₁, h₁⟩ := phrase
      rw [hx'] at hrun
      obtain ⟨vs, rfl, hb⟩ := (hf a s₁ h₁ b rest hg).1 ⟨h, hrun⟩
      have hkind := kind_prepend rest vs
      obtain ⟨us, rfl, ha⟩ := (hx a _ (hkind ▸ hmid a vs _ b hg hb)).1 ⟨h₁, hx'⟩
      exact ⟨us ++ vs, (prepend_append rest us vs).symm, us, vs, a, rfl, hkind ▸ ha, hb⟩
  · rintro ⟨-, rfl, us, vs, a, rfl, ha, hb⟩
    have hkind := kind_prepend rest vs
    obtain ⟨h₁, hrun⟩ := (hx a (rest.prepend vs) (hkind ▸ hmid a vs _ b hg hb)).2
      ⟨us, prepend_append rest us vs, hkind.symm ▸ ha⟩
    obtain ⟨h, hrun'⟩ := (hf a _ h₁ b rest hg).2 ⟨vs, rfl, hb⟩
    exact ⟨h, by rw [hrun]; exact hrun'⟩

theorem bind {x : Parse α m} {f : Phrase α m → Parse β n} {derives₂ : α → List Token → TokenKind → β → Prop}
    (hx : Accepts (fun _ => True) s derives x) (hf : ∀ a s₁ h, Accepts good s₁ (derives₂ a) (f ⟨a, s₁, h⟩)) :
    Accepts good s
      (fun ts next b => ∃ us vs a, ts = us ++ vs ∧ derives us (front vs next) a ∧ derives₂ a vs next b) (x >>= f) :=
  hx.bindBefore hf fun _ _ _ _ _ _ => trivial

/-- What is read is the whole phrase; what follows only builds its value. -/
theorem map {x : Parse α m} {k : Phrase α m → Parse β n} {f : α → β} (hx : Accepts good s derives x)
    (hk : ∀ a s₁ h, ∃ h', k ⟨a, s₁, h⟩ = .ok ⟨f a, s₁, h'⟩) :
    Accepts good s (fun ts next b => ∃ a, derives ts next a ∧ b = f a) (x >>= k) := by
  intro b rest hg
  constructor
  · rintro ⟨h, hrun⟩
    cases hx' : x with
    | error failure =>
      rw [hx'] at hrun
      cases hrun
    | ok phrase =>
      obtain ⟨a, s₁, h₁⟩ := phrase
      obtain ⟨h', hk'⟩ := hk a s₁ h₁
      rw [hx'] at hrun
      cases hk'.symm.trans hrun
      obtain ⟨ts, hs, ha⟩ := (hx a rest hg).1 ⟨h₁, hx'⟩
      exact ⟨ts, hs, a, ha, rfl⟩
  · rintro ⟨ts, hs, a, ha, rfl⟩
    obtain ⟨h₁, hx'⟩ := (hx a rest hg).2 ⟨ts, hs, ha⟩
    obtain ⟨h', hk'⟩ := hk a rest h₁
    exact ⟨h', by rw [hx']; exact hk'⟩

/-- Going past a token of the kind that is next. -/
theorem take {x : Parse α n} {kind : TokenKind} {next : Token → List Token → TokenKind → α → Prop}
    (hk : s.kind = kind) (hne : kind ≠ .endOfInput) (h : Accepts good s.advance (next s.current) x) :
    Accepts good s (fun ts k a => ∃ t us, ts = t :: us ∧ t.kind = kind ∧ next t us k a) x := by
  have heq := eq_prepend_of_kind_ne (hk.symm ▸ hne)
  intro a rest hg
  rw [h a rest hg]
  constructor
  · rintro ⟨us, hs, ha⟩
    exact ⟨s.current :: us, by rw [heq, hs]; rfl, s.current, us, rfl, hk, ha⟩
  · rintro ⟨-, rfl, t, us, rfl, -, ha⟩
    exact ⟨us, rfl, ha⟩

theorem advance {x : Parse α n} {kind : TokenKind} (hk : s.kind = kind) (hne : kind ≠ .endOfInput)
    (h : Accepts good s.advance derives x) :
    Accepts good s (fun ts k a => ∃ t us, ts = t :: us ∧ t.kind = kind ∧ derives us k a) x := take hk hne h

theorem token {kind : TokenKind} {f : Phrase Token s.size → Parse α n}
    {next : Token → List Token → TokenKind → α → Prop} (hne : kind ≠ .endOfInput)
    (hf : ∀ t s₁ h, Accepts good s₁ (next t) (f ⟨t, s₁, h⟩)) :
    Accepts good s (fun ts k a => ∃ t us, ts = t :: us ∧ t.kind = kind ∧ next t us k a) (s.expect kind >>= f) := by
  by_cases hk : s.kind = kind ∧ s.kind ≠ .endOfInput
  · have hrun : (s.expect kind >>= f) = f (s.take hk.2) := by
      unfold TokenStream.expect
      rw [dif_pos hk]
      rfl
    rw [hrun]
    exact take hk.1 hne (hf s.current s.advance _)
  · have hrun : ∃ failure, (s.expect kind >>= f) = .error failure := by
      unfold TokenStream.expect
      rw [dif_neg hk]
      exact ⟨_, rfl⟩
    obtain ⟨failure, hrun⟩ := hrun
    rw [hrun]
    refine (error failure).congr fun ts next a hs _ => ⟨False.elim, ?_⟩
    rintro ⟨t, us, rfl, ht, -⟩
    have hkind : s.kind = kind := hs.symm.trans ht
    exact hk ⟨hkind, hkind ▸ hne⟩

/-- A choice by the kind of the next token. -/
theorem ite (c : TokenKind → Prop) [DecidablePred c] {x y : Parse α n} (hx : c s.kind → Accepts good s derives x)
    (hy : ¬ c s.kind → Accepts good s derives' y) :
    Accepts good s (fun ts next a => c (front ts next) ∧ derives ts next a ∨ ¬ c (front ts next) ∧ derives' ts next a)
      (if c s.kind then x else y) := by
  by_cases hc : c s.kind
  · rw [if_pos hc]
    refine (hx hc).congr fun ts next a hs _ => ?_
    rw [hs]
    exact ⟨fun h => .inl ⟨hc, h⟩, fun h => h.elim And.right fun h => absurd hc h.1⟩
  · rw [if_neg hc]
    refine (hy hc).congr fun ts next a hs _ => ?_
    rw [hs]
    exact ⟨fun h => .inr ⟨hc, h⟩, fun h => h.elim (fun h => absurd h.1 hc) And.right⟩

/-- Going past a token that may be there. -/
theorem skip {x : Parse α n} (kind : TokenKind) (hne : kind ≠ .endOfInput)
    (h : Accepts good (s.skip kind) derives x) :
    Accepts good s (fun ts next a => ∃ sep us, ts = sep ++ us ∧ Optional kind sep ∧
      (sep = [] → front us next ≠ kind) ∧ derives us next a) x := by
  unfold TokenStream.skip at h
  split at h
  · next hk =>
    refine (advance hk hne h).congr fun ts next a hs _ => ?_
    constructor
    · rintro ⟨t, us, rfl, ht, ha⟩
      exact ⟨[t], us, rfl, .present ht, fun h => (by cases h), ha⟩
    · rintro ⟨sep, us, rfl, hsep | ht, hno, ha⟩
      · exact absurd (hs.trans hk) (hno rfl)
      · exact ⟨_, us, rfl, ht, ha⟩
  · next hk =>
    refine h.congr fun ts next a hs _ => ?_
    constructor
    · intro ha
      exact ⟨[], ts, rfl, .absent, fun _ => hs ▸ hk, ha⟩
    · rintro ⟨sep, us, rfl, hsep | ht, hno, ha⟩
      · exact ha
      · exact absurd (hs.symm.trans ht) hk

/-- The outcome of a computation at the place where the phrase ends. -/
theorem liftAt {r : Except Fault α} {f : α → β} (h : s.size < n) :
    Accepts good s (fun ts _ b => ts = [] ∧ ∃ a, r = .ok a ∧ b = f a)
      (Parse.liftAt s r >>= fun a => (Pure.pure ⟨f a, s, h⟩ : Parse β n)) := by
  cases r with
  | error fault =>
    refine (error ⟨fault, s⟩).congr fun ts next b _ _ => ⟨False.elim, ?_⟩
    rintro ⟨-, a, ⟨⟩, -⟩
  | ok a =>
    refine (pure (f a) h).congr fun ts next b _ _ => and_congr_right fun _ => ?_
    simp

end Accepts

/-! ## Phrases without expressions -/

section Phrases
variable {good : TokenKind → Prop} (s : TokenStream)

/-- The keyword of a type, which has been read. -/
theorem accepts_keyword (token : Token) {n : Nat} (h : s.size < n) :
    Accepts good s (fun ts _ ty => ts = [] ∧ Ty.ofKeyword? token.text = some ty)
      (match Ty.ofKeyword? token.text with
        | some t => Pure.pure ⟨t, s, h⟩
        | none => throw ⟨.parse (.unknownType token.text) token.loc, s⟩ : Parse Ty n) := by
  cases Ty.ofKeyword? token.text with
  | none => exact (Accepts.error _).congr fun ts next ty _ _ => by simp
  | some t => exact (Accepts.pure t h).congr fun ts next ty _ _ => by simp [eq_comm]

theorem accepts_typeName : Accepts good s (fun ts _ ty => ∃ t, ts = [t] ∧ Names t ty) (typeName s) := by
  unfold typeName
  refine (Accepts.token (by decide) fun token s₁ h => accepts_keyword s₁ token h).congr fun ts next ty _ _ => ?_
  constructor
  · rintro ⟨t, us, rfl, hk, rfl, ht⟩
    exact ⟨t, rfl, hk, ht⟩
  · rintro ⟨t, rfl, hk, ht⟩
    exact ⟨t, [], rfl, hk, rfl, ht⟩

/-- The next token, read as a literal. -/
theorem accepts_literalToken (hk : s.kind ≠ .endOfInput) :
    Accepts good s (fun ts _ a => ∃ t us, ts = t :: us ∧ t.kind = s.kind ∧ us = [] ∧ t.loc = a.1 ∧
      Literal.ofToken t = .ok a.2)
      (match Literal.ofToken s.current with
        | .ok value => .ok ⟨(s.current.loc, value), s.advance, s.size_advance_lt hk⟩
        | .error cause => .error ⟨.parse cause s.current.loc, s.advance⟩ : Parse (Location × Literal) s.size) := by
  refine .take rfl hk ?_
  cases hv : Literal.ofToken s.current with
  | error cause => exact (Accepts.error _).congr fun ts next a _ _ => by simp
  | ok value =>
    refine (Accepts.pure (s.current.loc, value) (s.size_advance_lt hk)).congr fun ts next a _ _ => ?_
    simp [Prod.ext_iff, eq_comm]

theorem accepts_literal :
    Accepts good s (fun ts _ a => ∃ t, ts = [t] ∧ t.loc = a.1 ∧ Literal.ofToken t = .ok a.2) (literal s) := by
  unfold literal
  split
  · next hk =>
    unfold TokenStream.refuse
    refine (Accepts.error _).congr fun ts next a hs _ => ⟨False.elim, ?_⟩
    rintro ⟨t, rfl, -, hv⟩
    have hkind := Literal.kind_of_ofToken hv
    rw [show t.kind = s.kind from hs, hk] at hkind
    simp at hkind
  · next hk =>
    refine (accepts_literalToken s hk).congr fun ts next a hs _ => ?_
    constructor
    · rintro ⟨t, us, rfl, -, rfl, hloc, hv⟩
      exact ⟨t, rfl, hloc, hv⟩
    · rintro ⟨t, rfl, hloc, hv⟩
      exact ⟨t, [], rfl, hs, rfl, hloc, hv⟩

theorem accepts_bound (side : BoundSide) :
    Accepts good s (fun ts _ b => ∃ t, ts = [t] ∧ Bounds t b) (bound side s) := by
  unfold bound
  have hbound : ∀ (a : Location × Literal) (s₁ : TokenStream) (h : s₁.size < s.size),
      Accepts good s₁ (fun ts _ b => ts = [] ∧ Number.ofLiteral? a.2 = some b.value ∧ a.1 = b.loc)
        (Parse.liftAt s₁ (Bound.ofLiteral side a.1 a.2) >>= fun b => (pure ⟨b, s₁, h⟩ : Parse Bound s.size)) := by
    rintro ⟨loc, value⟩ s₁ h
    refine (Accepts.liftAt h).congr fun ts next b _ _ => and_congr_right fun _ => ?_
    obtain ⟨bloc, bvalue⟩ := b
    unfold Bound.ofLiteral
    cases Number.ofLiteral? value with
    | none => simp
    | some number => simp [and_comm]
  refine ((accepts_literal s).bind hbound).congr fun ts next b _ _ => ?_
  constructor
  · rintro ⟨-, -, a, rfl, ⟨t, rfl, hloc, hv⟩, rfl, hn, hb⟩
    exact ⟨t, rfl, a.2, hv, hn, hloc.trans hb⟩
  · rintro ⟨t, rfl, value, hv, hn, hloc⟩
    exact ⟨[t], [], (t.loc, value), rfl, ⟨t, rfl, rfl, hv⟩, rfl, hn, hloc⟩

theorem accepts_parameters : Accepts (· = .rightParen) s (fun ts _ params => Parameters ts params) (parameters s) := by
  have go : ∀ n (s : TokenStream), s.size = n →
      Accepts (· = .rightParen) s (fun ts _ params => Parameters ts params) (parameters s) := by
    intro n
    induction n using Nat.strongRecOn with
    | ind n ih =>
    intro s hn
    rw [parameters]
    apply Accepts.congr
    · apply Accepts.ite (· = .identifier)
      · intro _
        apply Accepts.token (by decide)
        intro id s₁ h₁
        apply Accepts.token (by decide)
        intro _ s₂ h₂
        apply Accepts.bind (accepts_typeName s₂)
        intro t s₃ h₃
        apply Accepts.ite (· = .comma)
        · intro hk
          apply Accepts.advance hk (by decide)
          have hle := s₃.size_advance_le
          apply Accepts.map (ih _ (by omega) s₃.advance rfl)
          intro params s₄ h₄
          exact ⟨_, rfl⟩
        · intro _
          apply Accepts.pure
      · intro _
        apply Accepts.pure
    · intro ts next params _ hg
      constructor
      · rintro (⟨-, id, _, rfl, hid, colon, _, rfl, hc, _, _, ty, rfl, ⟨t, rfl, ht⟩, hrest⟩ | ⟨-, rfl, rfl⟩)
        · rcases hrest with ⟨-, comma, ps, rfl, hcomma, params, hp, rfl⟩ | ⟨-, rfl, rfl⟩
          · exact .cons hid hc ht hcomma hp
          · exact .last hid hc ht
        · exact .nil
      · intro h
        cases h with
        | nil => exact .inr ⟨by simp [front, hg], rfl, rfl⟩
        | last hid hc ht =>
          exact .inl ⟨hid, _, _, rfl, hid, _, _, rfl, hc, [_], [], _, rfl, ⟨_, rfl, ht⟩,
            .inr ⟨by simp [front, hg], rfl, rfl⟩⟩
        | cons hid hc ht hcomma hr =>
          exact .inl ⟨hid, _, _, rfl, hid, _, _, rfl, hc, [_], _, _, rfl, ⟨_, rfl, ht⟩,
            .inl ⟨hcomma, _, _, rfl, hcomma, _, hr, rfl⟩⟩
  exact go _ s rfl

theorem accepts_returnType :
    Accepts (· = .operator .assign) s (fun ts _ ty => ReturnType ts ty) (returnType s) := by
  unfold returnType
  apply Accepts.congr
  · apply Accepts.ite (· = .colon)
    · intro hk
      apply Accepts.advance hk (by decide)
      apply Accepts.map (accepts_typeName s.advance)
      intro t s₁ h₁
      exact ⟨_, rfl⟩
    · intro _
      apply Accepts.pure
  · intro ts next ty _ hg
    constructor
    · rintro (⟨-, colon, _, rfl, hc, ty, ⟨t, rfl, ht⟩, rfl⟩ | ⟨-, rfl, rfl⟩)
      · exact .stated hc ht
      · exact .unstated
    · intro h
      cases h with
      | unstated => exact .inr ⟨by simp [front, hg], rfl, rfl⟩
      | stated hc ht => exact .inl ⟨hc, _, _, rfl, hc, _, ⟨_, rfl, ht⟩, rfl⟩

theorem accepts_signature : Accepts good s (fun ts _ signature => Header ts signature) (signature s) := by
  unfold signature
  apply Accepts.congr
  · apply Accepts.token (by decide)
    intro word s₁ h₁
    apply Accepts.token (by decide)
    intro id s₂ h₂
    apply Accepts.token (by decide)
    intro _ s₃ h₃
    apply Accepts.bindBefore (accepts_parameters s₃)
    · intro params s₄ h₄
      apply Accepts.token (by decide)
      intro _ s₅ h₅
      apply Accepts.bindBefore (accepts_returnType s₅)
      · intro ret s₆ h₆
        apply Accepts.token (by decide)
        intro _ s₇ h₇
        apply Accepts.pure
      · intro _ _ _ _ _
        apply front_of_cons
    · intro _ _ _ _ _
      apply front_of_cons
  · intro ts next signature _ _
    constructor
    · rintro ⟨word, _, rfl, hw, id, _, rfl, hid, opening, _, rfl, ho, ps, _, params, rfl, hp, closing, _, rfl, hc, rs,
        _, ret, rfl, hr, sign, _, rfl, hs, rfl, rfl⟩
      exact .mk hw hid ho hp hc hr hs
    · rintro ⟨hw, hid, ho, hp, hc, hr, hs⟩
      exact ⟨_, _, rfl, hw, _, _, rfl, hid, _, _, rfl, ho, _, _, _, rfl, hp, _, _, rfl, hc, _, _, _, rfl, hr, _, _, rfl,
        hs, rfl, rfl⟩

end Phrases

end Parse
end FrontEnd
