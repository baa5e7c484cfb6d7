import FrontEnd.Proofs.Syntax.OpenComments
import FrontEnd.Proofs.Syntax.Reading
import FrontEnd.Proofs.Syntax.Recognition

/-!
# Literals and comments that are left open

* `Scan.closes` : whether a quoted literal finds its closing quote; `Scan.leftOpen_lexeme` : its token tells;
* `Literal.ofToken_leftOpen` : a literal that is left open has no value;
* `Grammar.Statements.readable` : every quoted token of a derivation has a value;
* `readProgram_openings` : a source that leaves a literal open is refused, and one that leaves a comment open is
  accepted just if the text in front of the comment is, whatever sources are read before and after it.
-/

namespace FrontEnd

/-! ## Quoted literals -/

namespace Scan

/-- Whether the closing quote of a literal is in `cs`, which stands behind its opening one. -/
def closes (quote : Char) : Text → Bool
  | [] => false
  | ['\\'] => false
  | '\\' :: _ :: cs => closes quote cs
  | c :: cs => c = quote || closes quote cs

variable {quote : Char} {cs : Text}

theorem closes_cons {c : Char} (hc : c ≠ '\\') (cs : Text) :
    closes quote (c :: cs) = (decide (c = quote) || closes quote cs) := by
  rw [closes] <;> simp [hc]

/-- A literal that is not closed takes all of its line. -/
theorem quotedLength_of_not_closes (h : closes quote cs = false) : quotedLength quote cs = cs.length := by
  fun_induction closes quote cs with
  | case1 => rfl
  | case2 => rfl
  | case3 x cs ih =>
    rw [quotedLength, ih h, List.length_cons, List.length_cons]
    omega
  | case4 c cs hnil hcons ih =>
    rw [Bool.or_eq_false_iff, decide_eq_false_iff_not] at h
    rw [quotedLength_cons (ne_backslash hnil hcons), if_neg h.1, ih h.2, List.length_cons]
    omega

/-- Whether a literal is closed on its line can be seen from its token. -/
theorem closes_take (quote : Char) (cs : Text) : closes quote (cs.take (quotedLength quote cs)) = closes quote cs := by
  fun_induction closes quote cs with
  | case1 => rfl
  | case2 => rfl
  | case3 x cs ih =>
    rw [quotedLength, Nat.add_comm, List.take_succ_cons, List.take_succ_cons, closes, ih]
  | case4 c cs hnil hcons ih =>
    have hc := ne_backslash hnil hcons
    rw [quotedLength_cons hc]
    split
    · next heq => rw [List.take_succ_cons, closes_cons hc, decide_eq_true heq, Bool.true_or, Bool.true_or]
    · next hne => rw [Nat.add_comm, List.take_succ_cons, closes_cons hc, ih]

end Scan

/-- The token is a quoted literal without its closing quote. -/
def Token.LeftOpen (t : Token) : Prop :=
  ∃ quote body, t.text = quote :: body ∧ Scan.closes quote body = false ∧
    (t.kind = .string ∧ quote = '"' ∨ t.kind = .character ∧ quote = '\'')

/-- A literal whose closing quote is not on its line takes the rest of that line, and no other literal is left open. -/
theorem Scan.leftOpen_lexeme {quote : Char} (hq : quote = '"' ∨ quote = '\'') (rest : Text) (loc : Location) :
    (Token.LeftOpen ⟨(lexeme quote rest).1, quote :: rest.take (lexeme quote rest).2, loc⟩ ↔
      closes quote rest = false) ∧ (closes quote rest = false → rest.take (lexeme quote rest).2 = rest) := by
  have hlexeme : lexeme quote rest = (if quote = '"' then .string else .character, quotedLength quote rest) := by
    rcases hq with rfl | rfl <;> simp [lexeme, symbol?]
  rw [hlexeme]
  refine ⟨⟨?_, fun h => ⟨quote, _, rfl, ?_, ?_⟩⟩, fun h => ?_⟩
  · rintro ⟨quote', body, heq, hopen, -⟩
    cases heq
    rwa [closes_take] at hopen
  · rwa [closes_take]
  · rcases hq with rfl | rfl
    · exact .inl ⟨rfl, rfl⟩
    · exact .inr ⟨rfl, rfl⟩
  · rw [quotedLength_of_not_closes h, List.take_length]

/-- Some literal is still open where its line ends. -/
def Source.LeavesLiteralOpen (s : Source) : Prop := ∃ t ∈ s.tokens, t.LeftOpen

theorem Quoted.unescape_of_not_closes {quote : Char} {cs : Text} (hq : quote ≠ '\\')
    (h : Scan.closes quote cs = false) : ∃ problem, unescape quote cs = .error problem := by
  fun_induction Scan.closes quote cs with
  | case1 => exact ⟨_, rfl⟩
  | case2 => exact ⟨.unterminated, by rw [unescape, if_neg hq.symm, if_pos rfl]⟩
  | case3 c cs ih =>
    obtain ⟨problem, hproblem⟩ := ih h
    rw [unescape, if_neg hq.symm, if_pos rfl]
    cases escaped? c with
    | none => exact ⟨_, rfl⟩
    | some v => exact ⟨problem, by rw [hproblem]; rfl⟩
  | case4 c cs hnil hcons ih =>
    rw [Bool.or_eq_false_iff, decide_eq_false_iff_not] at h
    obtain ⟨problem, hproblem⟩ := ih h.2
    exact ⟨problem, by rw [unescape.eq_def]; simp [h.1, Scan.ne_backslash hnil hcons, hproblem]⟩

theorem Literal.ofToken_leftOpen {t : Token} (h : t.LeftOpen) : ∃ cause, Literal.ofToken t = .error cause := by
  obtain ⟨quote, body, htext, hopen, hkind⟩ := h
  have hq : quote ≠ '\\' := by rcases hkind with ⟨-, rfl⟩ | ⟨-, rfl⟩ <;> decide
  obtain ⟨problem, hproblem⟩ := Quoted.unescape_of_not_closes hq hopen
  rcases hkind with ⟨hkind, -⟩ | ⟨hkind, -⟩ <;>
    (rw [Literal.ofToken, hkind, Quoted.decode.eq_def, htext]; simp only [hproblem]; exact ⟨_, rfl⟩)

/-! ## Derivations -/

/-- Whether tokens of this kind are quoted literals. -/
def TokenKind.isQuoted : TokenKind → Bool
  | .string | .character => true
  | _ => false

/-- A quoted literal has a value. -/
def Token.Readable (t : Token) : Prop := t.kind.isQuoted → ∃ value, Literal.ofToken t = .ok value

theorem Token.readable_of_kind {t : Token} {kind : TokenKind} (h : t.kind = kind) (hk : kind.isQuoted = false) :
    t.Readable := by
  intro hq
  rw [h, hk] at hq
  cases hq

namespace Grammar

/-- All quoted literals among the tokens have a value. -/
def AllReadable (ts : List Token) : Prop := ∀ t ∈ ts, t.Readable

theorem AllReadable.nil : AllReadable [] := fun _ ht => nomatch ht

theorem AllReadable.cons {t : Token} {ts : List Token} (h : t.Readable) (hs : AllReadable ts) :
    AllReadable (t :: ts) := by
  simpa [AllReadable] using ⟨h, hs⟩

/-- A token of another kind is no quoted literal. -/
theorem AllReadable.other {t : Token} {ts : List Token} {kind : TokenKind} (h : t.kind = kind)
    (hs : AllReadable ts) (hk : kind.isQuoted = false) : AllReadable (t :: ts) :=
  .cons (Token.readable_of_kind h hk) hs

theorem AllReadable.append {ts us : List Token} (h : AllReadable ts) (h' : AllReadable us) :
    AllReadable (ts ++ us) := by
  intro t ht
  exact (List.mem_append.1 ht).elim (h t) (h' t)

theorem Parameters.readable {ts : List Token} {params : List (Text × Ty)} (h : Parameters ts params) :
    AllReadable ts := by
  induction h with
  | nil => exact .nil
  | last hid hc ht => exact .other hid (.other hc (.other ht.1 .nil rfl) rfl) rfl
  | cons hid hc ht hs _ ih => exact .other hid (.other hc (.other ht.1 (.other hs ih rfl) rfl) rfl) rfl

theorem ReturnType.readable {ts : List Token} {ret : Ty} (h : ReturnType ts ret) : AllReadable ts := by
  cases h with
  | unstated => exact .nil
  | stated hc ht => exact .other hc (.other ht.1 .nil rfl) rfl

theorem Header.readable {ts : List Token} {signature : Signature} (h : Header ts signature) : AllReadable ts := by
  cases h with
  | mk hw hid ho hp hc hr hs =>
    exact .other hw (.other hid (.other ho (hp.readable.append
      (.other hc (hr.readable.append (.other hs .nil rfl)) rfl)) rfl) rfl) rfl

theorem Bounds.readable {t : Token} {b : Bound} (h : Bounds t b) : t.Readable := by
  obtain ⟨value, hvalue, -, -⟩ := h
  exact fun _ => ⟨value, hvalue⟩

theorem Optional.readable {ts : List Token} {kind : TokenKind} (h : Optional kind ts) (hk : kind.isQuoted = false) :
    AllReadable ts := by
  cases h with
  | absent => exact .nil
  | present h => exact .other h .nil hk

mutual

theorem Statements.readable : ∀ {ts : List Token} {next : TokenKind} {fs : List Function} {es : List Expr},
    Statements ts next fs es → AllReadable ts
  | _, _, _, _, .nil => .nil
  | _, _, _, _, .function hf hs hr => hf.readable.append ((hs.readable rfl).append hr.readable)
  | _, _, _, _, .statement he hs hr => he.readable.append ((hs.readable rfl).append hr.readable)

theorem Declaration.readable : ∀ {ts : List Token} {next : TokenKind} {f : Function},
    Declaration ts next f → AllReadable ts
  | _, _, _, .mk hh hb => hh.readable.append hb.readable

theorem Statement.readable : ∀ {ts : List Token} {next : TokenKind} {e : Expr}, Statement ts next e → AllReadable ts
  | _, _, _, .block h => h.readable
  | _, _, _, .whileLoop h => h.readable
  | _, _, _, .forLoop h => h.readable
  | _, _, _, .binding h => h.readable
  | _, _, _, .branch h => h.readable
  | _, _, _, .expression h _ => h.readable

theorem Block.readable : ∀ {ts : List Token} {e : Expr}, Block ts e → AllReadable ts
  | _, _, .mk ho hs hc => .other ho (hs.readable.append (.other hc .nil rfl)) rfl

theorem WhileLoop.readable : ∀ {ts : List Token} {next : TokenKind} {e : Expr}, WhileLoop ts next e → AllReadable ts
  | _, _, _, .mk hw ht hb => .other hw (ht.readable.append hb.readable) rfl

theorem Binding.readable : ∀ {ts : List Token} {next : TokenKind} {e : Expr}, Binding ts next e → AllReadable ts
  | _, _, _, .mk hw hid hs hv => .other hw (.other hid (.other hs hv.readable rfl) rfl) rfl

theorem Branch.readable : ∀ {ts : List Token} {next : TokenKind} {e : Expr}, Branch ts next e → AllReadable ts
  | _, _, _, .ifThen hw ht hb _ => .other hw (ht.readable.append hb.readable) rfl
  | _, _, _, .ifElse hw ht hb hs he =>
    .other hw (ht.readable.append (hb.readable.append (.other hs he.readable rfl))) rfl

theorem ForLoop.readable : ∀ {ts : List Token} {next : TokenKind} {e : Expr}, ForLoop ts next e → AllReadable ts
  | _, _, _, .range hw ho h => .other hw (.other ho h.readable rfl) rfl
  | _, _, _, .counting hw ho h => .other hw (.other ho h.readable rfl) rfl

theorem RangeLoop.readable : ∀ {loc : Location} {ts : List Token} {next : TokenKind} {e : Expr},
    RangeLoop loc ts next e → AllReadable ts
  | _, _, _, _, .mk hid hc ha hc' hb hs hp hbody =>
    .other hid (.other hc (.cons ha.readable (.other hc' (.cons hb.readable
      (hs.readable.append (.other hp hbody.readable rfl))) rfl)) rfl) rfl

theorem Step.readable : ∀ {ts : List Token} {next : TokenKind} {step : Option Expr}, Step ts next step → AllReadable ts
  | _, _, _, .absent => .nil
  | _, _, _, .present hc he => .other hc he.readable rfl

theorem CountingLoop.readable : ∀ {loc : Location} {ts : List Token} {next : TokenKind} {e : Expr},
    CountingLoop loc ts next e → AllReadable ts
  | _, _, _, _, .mk hc hp hb => hc.readable.append (.other hp hb.readable rfl)

theorem Parenthesized.readable : ∀ {ts : List Token} {e : Expr}, Parenthesized ts e → AllReadable ts
  | _, _, .mk ho he hc => .other ho (he.readable.append (.other hc .nil rfl)) rfl

theorem Expression.readable : ∀ {ts : List Token} {next : TokenKind} {e : Expr}, Expression ts next e → AllReadable ts
  | _, _, _, .mk h _ _ _ _ => h.readable

theorem Terms.readable : ∀ {ts : List Token} {next : TokenKind} {run : List Term}, Terms ts next run → AllReadable ts
  | _, _, _, .nil => .nil
  | _, _, _, .operator ho hr => .other ho hr.readable rfl
  | _, _, _, .operand he hr => he.readable.append hr.readable

theorem Operand.readable : ∀ {ts : List Token} {next : TokenKind} {e : Expr}, Operand ts next e → AllReadable ts
  | _, _, _, .block h => h.readable
  | _, _, _, .branch h => h.readable
  | _, _, _, .parenthesized h => h.readable
  | _, _, _, .named h => h.readable
  | _, _, _, .literal h => .cons (fun _ => ⟨_, h⟩) .nil

theorem Named.readable : ∀ {ts : List Token} {e : Expr}, Named ts e → AllReadable ts
  | _, _, .name hid => .other hid .nil rfl
  | _, _, .call hid ho ha hc => .other hid (.other ho (ha.readable.append (.other hc .nil rfl)) rfl) rfl

theorem Arguments.readable : ∀ {ts : List Token} {args : List Expr}, Arguments ts args → AllReadable ts
  | _, _, .nil => .nil
  | _, _, .last he => he.readable
  | _, _, .cons he hc hr => he.readable.append (.other hc hr.readable rfl)

end

end Grammar

/-! ## Sources -/

/-- Sources are accepted just if their tokens are statements. -/
theorem accepts_iff_statements (sources : List Source) : (∃ e, readProgram (.ofSources sources) = .ok e) ↔
    ∃ fs es, Grammar.Statements (TokenStream.ofSources sources).ahead .endOfInput fs es := by
  have hs := TokenStream.kind_of_mem_ofSources sources
  generalize TokenStream.ofSources sources = s at hs
  simp only [readProgram_eq_ok_iff hs]
  constructor
  · rintro ⟨e, hprogram⟩
    generalize hlist : s.toList = list at hprogram
    obtain ⟨hstatements, -, -⟩ := hprogram
    obtain ⟨rfl, -⟩ := List.append_inj' hlist rfl
    exact ⟨_, _, hstatements⟩
  · rintro ⟨fs, es, hstatements⟩
    exact ⟨_, .mk hstatements rfl (Parse.head?_toList s)⟩

theorem readProgram_leavesLiteralOpen {sources : List Source} (h : ∃ s ∈ sources, s.LeavesLiteralOpen) :
    ∃ cause loc, readProgram (.ofSources sources) = .error (.parse cause loc) := by
  cases hread : readProgram (.ofSources sources) with
  | error fault =>
    have hyields := readProgram_yields (.ofSources sources)
    rw [hread] at hyields
    obtain ⟨cause, loc, rfl⟩ := hyields
    exact ⟨cause, loc, rfl⟩
  | ok e =>
    obtain ⟨s, hs, t, ht, hopen⟩ := h
    obtain ⟨fs, es, hstatements⟩ := (accepts_iff_statements sources).1 ⟨e, hread⟩
    have hquoted : t.kind.isQuoted := by
      obtain ⟨quote, body, -, -, ⟨hkind, -⟩ | ⟨hkind, -⟩⟩ := hopen <;> rw [hkind] <;> rfl
    have hmem : t ∈ (TokenStream.ofSources sources).ahead :=
      List.mem_flatMap.2 ⟨s, List.mem_reverse.2 hs, ht⟩
    obtain ⟨value, hvalue⟩ := hstatements.readable t hmem hquoted
    obtain ⟨cause, hcause⟩ := Literal.ofToken_leftOpen hopen
    cases hcause.symm.trans hvalue

/-- Sources one of which leaves a quoted literal open are refused. If one of them leaves a comment open, then they are
accepted just if they are with the text in front of this comment in its place. -/
theorem readProgram_openings (before after : List Source) (s : Source) :
    (s.LeavesLiteralOpen → ∃ cause loc, readProgram (.ofSources (before ++ s :: after)) = .error (.parse cause loc)) ∧
    (s.LeavesCommentOpen → ∃ front body, s.text = front ++ '/' :: '*' :: body ∧
      ¬ Source.LeavesCommentOpen ⟨front ++ [' '], s.name⟩ ∧
      ((∃ e, readProgram (.ofSources (before ++ s :: after)) = .ok e) ↔
        ∃ e, readProgram (.ofSources (before ++ ⟨front ++ [' '], s.name⟩ :: after)) = .ok e)) := by
  refine ⟨fun h => readProgram_leavesLiteralOpen ⟨s, by simp, h⟩, fun h => ?_⟩
  obtain ⟨front, body, htext, hclosed, htokens⟩ := Source.tokens_front h
  refine ⟨front, body, htext, hclosed, ?_⟩
  rw [accepts_iff_statements, accepts_iff_statements]
  simp [TokenStream.ofSources, htokens]

/-- A comment that is left open behind a number does not keep the number from being accepted. -/
theorem readProgram_openComment : Source.LeavesCommentOpen ⟨"1 /*", "m"⟩ ∧
    readProgram (.ofSources [⟨"1 /*", "m"⟩]) = .ok (.block ⟨"m", 1, 1⟩ [] [.literal ⟨"m", 1, 1⟩ (.int 1)]) := by
  constructor <;> with_unfolding_all rfl

/-- A string without its closing quote, behind a comment with one. -/
theorem readProgram_openings_string : Source.LeavesLiteralOpen ⟨"/* \" */ \"a", "m"⟩ ∧
    ∃ cause loc, readProgram (.ofSources [⟨"/* \" */ \"a", "m"⟩]) = .error (.parse cause loc) := by
  have hopen : Source.LeavesLiteralOpen ⟨"/* \" */ \"a", "m"⟩ := by
    have htokens : Source.tokens ⟨"/* \" */ \"a", "m"⟩ = [⟨.string, "\"a", ⟨"m", 1, 9⟩⟩] := by with_unfolding_all rfl
    exact ⟨_, htokens ▸ List.mem_singleton_self _, '"', _, rfl, by rfl, .inl ⟨rfl, rfl⟩⟩
  exact ⟨hopen, (readProgram_openings [] [] _).1 hopen⟩

end FrontEnd
