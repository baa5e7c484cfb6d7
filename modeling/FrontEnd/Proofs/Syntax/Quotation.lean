import FrontEnd.Proofs.Syntax.Concatenation

/-!
# Quoted literals, scanned and decoded

The scanner looks for the end of a quoted literal, and leaves what it means to the parser; a backslash takes the next
character with it in both.

* `Quoted.Spelling` : a way to write a text between quotes; `Spelling.quotedLength`, `Spelling.unescape` : it is scanned up
  to the closing quote, and decoded to the text;
* `Quoted.Denotes` : the kind of token and the literal that a text between quotes is;
* `Quoted.Contents` : what can stand between quotes, escapes that mean nothing included; `Quoted.escapes` : the characters
  behind its backslashes;
* `Contents.decodes` : it is decoded up to the first escape that means nothing;
* `Quoted.scanned` : the scanner finds such contents, and a closing quote or the end of the line behind them;
* `Quoted.scanned_decoded` : what both make of a literal, from its spelling and from any line with a quote in it.
-/

namespace FrontEnd
namespace Scan

/-! ## Extents -/

theorem quotedLength_cons {quote x : Char} (hx : x ≠ '\\') (cs : Text) :
    quotedLength quote (x :: cs) = if x = quote then 1 else 1 + quotedLength quote cs := by
  rw [quotedLength] <;> simp [hx]

theorem ne_backslash {x : Char} {cs : Text} (hnil : x = '\\' → cs = [] → False)
    (hcons : ∀ y rest, x = '\\' → cs = y :: rest → False) : x ≠ '\\' := by
  intro hx
  cases cs with
  | nil => exact hnil hx rfl
  | cons y rest => exact hcons y rest hx rfl

end Scan

namespace Quoted

/-! ## Spellings -/

/-- `text` is `v`, written between two of `quote`: each character as it is or as an escape for it. The quote, a backslash
and a line feed have to be escaped. -/
inductive Spelling (quote : Char) : (text v : Text) → Prop
  | nil : Spelling quote [] []
  | raw {c : Char} {text v : Text} (hquote : c ≠ quote) (hbackslash : c ≠ '\\') (hnewline : c ≠ '\n')
    (h : Spelling quote text v) : Spelling quote (c :: text) (c :: v)
  | escaped {e c : Char} {text v : Text} (he : escaped? e = some c) (h : Spelling quote text v) :
    Spelling quote ('\\' :: e :: text) (c :: v)

/-- The kind of token and the literal that `v` between two of `quote` is. -/
inductive Denotes : (quote : Char) → (v : Text) → TokenKind → Literal → Prop
  | string (v : Text) : Denotes '"' v .string (.str v)
  | character (c : Char) : Denotes '\'' [c] .character (.char c)

section
variable {quote : Char} {text v : Text}

theorem Denotes.isQuote {kind : TokenKind} {value : Literal} (h : Denotes quote v kind value) :
    quote = '"' ∨ quote = '\'' := by
  cases h with
  | string => exact .inl rfl
  | character => exact .inr rfl

theorem quote_ne_backslash (hq : quote = '"' ∨ quote = '\'') : quote ≠ '\\' := by
  rcases hq with rfl | rfl <;> decide

theorem Spelling.newline_not_mem (h : Spelling quote text v) : '\n' ∉ text := by
  induction h with
  | nil => exact List.not_mem_nil
  | raw _ _ hnewline _ ih => simp [hnewline.symm, ih]
  | @escaped e _ _ _ he _ ih =>
    have hne : e ≠ '\n' := by
      rintro rfl
      cases he
    simp [hne.symm, ih]

theorem Spelling.quotedLength (hq : quote ≠ '\\') (h : Spelling quote text v) (rest : Text) :
    Scan.quotedLength quote (text ++ quote :: rest) = text.length + 1 := by
  induction h with
  | nil => rw [List.nil_append, Scan.quotedLength_cons hq, if_pos rfl, List.length_nil]
  | raw hquote hbackslash _ _ ih =>
    rw [List.cons_append, Scan.quotedLength_cons hbackslash, if_neg hquote, ih, List.length_cons, Nat.add_comm]
  | escaped _ _ ih =>
    simp only [List.cons_append, Scan.quotedLength, ih, List.length_cons]
    omega

theorem Spelling.unescape (hq : quote ≠ '\\') (h : Spelling quote text v) :
    unescape quote (text ++ [quote]) = .ok v := by
  induction h with
  | nil => simp [Quoted.unescape]
  | raw hquote hbackslash _ _ ih =>
    rw [List.cons_append, Quoted.unescape.eq_def]
    simp only [if_neg hquote, if_neg hbackslash, ih]
    rfl
  | escaped he _ ih =>
    rw [List.cons_append, List.cons_append, Quoted.unescape, if_neg hq.symm, if_pos rfl]
    simp only [he, ih]
    rfl

end

/-! ## Contents -/

/-- `text` can stand between two of `quote`: its backslashes are in front of another character, and `quote` stands only
behind one. -/
inductive Contents (quote : Char) : (text : Text) → Prop
  | nil : Contents quote []
  | raw {c : Char} {text : Text} (hquote : c ≠ quote) (hbackslash : c ≠ '\\') (h : Contents quote text) :
    Contents quote (c :: text)
  | escape (e : Char) {text : Text} (h : Contents quote text) : Contents quote ('\\' :: e :: text)

/-- `text` goes from an opening quote to the closing one. -/
def Enclosed (quote : Char) (text : Text) : Prop := ∃ body, text = quote :: (body ++ [quote]) ∧ Contents quote body

/-- The characters behind the backslashes of `text`, from left to right; a character behind a backslash starts no escape. -/
def escapes : Text → List Char
  | [] => []
  | ['\\'] => []
  | '\\' :: e :: cs => e :: escapes cs
  | _ :: cs => escapes cs

/-- The first escape in `text` that means nothing. -/
def firstUnknown? (text : Text) : Option Char := (escapes text).find? fun e => (escaped? e).isNone

theorem firstUnknown?_eq_none {text : Text} :
    firstUnknown? text = none ↔ ∀ e ∈ escapes text, (escaped? e).isSome := by
  simp [firstUnknown?, Option.isSome_iff_ne_none]

theorem escapes_cons {c : Char} (hc : c ≠ '\\') (cs : Text) : escapes (c :: cs) = escapes cs := by
  rw [escapes] <;> simp [hc]

/-- Decoding stops at the first escape in `body` that means nothing, or goes on behind it. -/
def Decodes (quote : Char) (body : Text) : Prop :=
  (∃ e, firstUnknown? body = some e ∧ ∀ tail, unescape quote (body ++ tail) = .error (.unknownEscape e)) ∨
  (firstUnknown? body = none ∧ ∃ v, ∀ tail, unescape quote (body ++ tail) = (v ++ ·) <$> unescape quote tail)

theorem Decodes.cons {quote : Char} {body body' : Text} (c : Char) (h : Decodes quote body)
    (hfirst : firstUnknown? body' = firstUnknown? body)
    (hstep : ∀ tail, unescape quote (body' ++ tail) = (c :: ·) <$> unescape quote (body ++ tail)) :
    Decodes quote body' := by
  rw [Decodes, hfirst]
  obtain ⟨e, he, herror⟩ | ⟨hnone, v, hv⟩ := h
  · exact .inl ⟨e, he, fun tail => by rw [hstep, herror]; rfl⟩
  · exact .inr ⟨hnone, c :: v, fun tail => by rw [hstep, hv, Functor.map_map]; rfl⟩

namespace Contents
variable {quote : Char} {body : Text}

theorem escapes_append (h : Contents quote body) (tail : Text) : escapes (body ++ tail) = escapes body ++ escapes tail := by
  induction h with
  | nil => rfl
  | raw _ hbackslash _ ih => rw [List.cons_append, escapes_cons hbackslash, escapes_cons hbackslash, ih]
  | escape e _ ih => rw [List.cons_append, List.cons_append, escapes, escapes, ih, List.cons_append]

/-- Where a closing quote stands, the contents do not go on. -/
theorem not_quote (h : Contents quote body) (hq : quote ≠ '\\') : ¬ Contents quote (body ++ [quote]) := by
  induction h with
  | nil =>
    intro h
    cases h with
    | raw hquote => exact hquote rfl
  | @raw c text _ hbackslash _ ih =>
    intro h
    rw [List.cons_append] at h
    generalize htail : text ++ [quote] = tail at h
    cases h with
    | raw _ _ h => exact ih (htail ▸ h)
    | escape => exact hbackslash rfl
  | escape e _ ih =>
    intro h
    rw [List.cons_append, List.cons_append] at h
    cases h with
    | raw _ hbackslash _ => exact hbackslash rfl
    | escape _ h => exact ih h

theorem decodes (h : Contents quote body) (hq : quote ≠ '\\') : Decodes quote body := by
  induction h with
  | nil => exact .inr ⟨rfl, [], fun tail => (id_map _).symm⟩
  | @raw c text hquote hbackslash _ ih =>
    refine ih.cons c ?_ fun tail => ?_
    · rw [firstUnknown?, escapes_cons hbackslash, firstUnknown?]
    · rw [List.cons_append, unescape.eq_def]
      simp only [if_neg hquote, if_neg hbackslash]
  | @escape e text _ ih =>
    cases he : escaped? e with
    | none =>
      refine .inl ⟨e, by simp [firstUnknown?, escapes, he], fun tail => ?_⟩
      rw [List.cons_append, List.cons_append, unescape, if_neg hq.symm, if_pos rfl, he]
    | some c =>
      refine ih.cons c ?_ fun tail => ?_
      · simp [firstUnknown?, escapes, he]
      · rw [List.cons_append, List.cons_append, unescape, if_neg hq.symm, if_pos rfl, he]

end Contents

/-- The scanner goes on to the closing quote of a literal, or else to the end of the line, which may cut an escape. -/
theorem scanned (quote : Char) (cs : Text) : ∃ body, Contents quote body ∧
    (cs.take (Scan.quotedLength quote cs) = body ++ [quote] ∨ cs.take (Scan.quotedLength quote cs) = body ∨
      cs.take (Scan.quotedLength quote cs) = body ++ ['\\']) := by
  fun_induction Scan.quotedLength quote cs with
  | case1 => exact ⟨[], .nil, .inr (.inl rfl)⟩
  | case2 => exact ⟨[], .nil, .inr (.inr rfl)⟩
  | case3 e cs ih =>
    obtain ⟨body, hbody, h⟩ := ih
    refine ⟨'\\' :: e :: body, .escape e hbody, ?_⟩
    rw [Nat.add_comm, List.take_succ_cons, List.take_succ_cons]
    simpa using h
  | case4 cs => exact ⟨[], .nil, .inl rfl⟩
  | case5 c cs hnil hcons hne ih =>
    obtain ⟨body, hbody, h⟩ := ih
    refine ⟨c :: body, .raw hne (Scan.ne_backslash hnil hcons) hbody, ?_⟩
    rw [Nat.add_comm, List.take_succ_cons]
    simpa using h

theorem not_enclosed {quote : Char} {body : Text} (hq : quote ≠ '\\') (h : Contents quote body) :
    ¬ Enclosed quote (quote :: body) ∧ ¬ Enclosed quote (quote :: (body ++ ['\\'])) := by
  constructor
  · rintro ⟨inner, heq, hinner⟩
    obtain ⟨-, rfl⟩ := List.cons.inj heq
    exact hinner.not_quote hq h
  · rintro ⟨inner, heq, -⟩
    have hlast := congrArg List.getLast? (List.cons.inj heq).2
    rw [List.getLast?_concat, List.getLast?_concat] at hlast
    exact hq (Option.some.inj hlast).symm

/-! ## Tokens -/

theorem decode_cons (quote : Char) (body : Text) : decode (quote :: body) = (unescape quote body).mapError fun
    | .unterminated => .unterminated (quote :: body)
    | .unknownEscape c => .unknownEscape c := rfl

/-- What becomes of a text that the scanner takes for a quoted literal: an escape that means nothing is reported, or else
a missing closing quote. -/
structure Reads (quote : Char) (text : Text) : Prop where
  value : (∃ v, decode text = .ok v) ↔ Enclosed quote text ∧ ∀ e ∈ escapes text, (escaped? e).isSome
  unterminated : ∀ raw, decode text = .error (.unterminated raw) ↔
    raw = text ∧ ¬ Enclosed quote text ∧ ∀ e ∈ escapes text, (escaped? e).isSome
  unknownEscape : ∀ e, decode text = .error (.unknownEscape e) ↔ firstUnknown? text = some e

namespace Reads
variable {quote : Char} {text : Text}

theorem of_unknownEscape {e : Char} (hdecode : decode text = .error (.unknownEscape e))
    (hfirst : firstUnknown? text = some e) : Reads quote text := by
  have hknown : ¬ ∀ e ∈ escapes text, (escaped? e).isSome := by
    rw [← firstUnknown?_eq_none, hfirst]
    exact Option.some_ne_none e
  constructor <;> simp [hdecode, hfirst, hknown]

theorem of_value {v : Text} (hdecode : decode text = .ok v) (hclosed : Enclosed quote text)
    (hfirst : firstUnknown? text = none) : Reads quote text := by
  have hknown := firstUnknown?_eq_none.1 hfirst
  constructor
  · exact iff_of_true ⟨v, hdecode⟩ ⟨hclosed, hknown⟩
  · simp [hdecode, hclosed]
  · simp [hdecode, hfirst]

theorem of_unterminated (hdecode : decode text = .error (.unterminated text)) (hopen : ¬ Enclosed quote text)
    (hfirst : firstUnknown? text = none) : Reads quote text := by
  have hknown := firstUnknown?_eq_none.1 hfirst
  constructor
  · simp [hdecode, hopen]
  · intro raw
    rw [hdecode]
    constructor
    · rintro ⟨⟩
      exact ⟨rfl, hopen, hknown⟩
    · rintro ⟨rfl, -⟩
      rfl
  · simp [hdecode, hfirst]

end Reads

theorem reads_scanned {quote : Char} (hq : quote ≠ '\\') (cs : Text) :
    Reads quote (quote :: cs.take (Scan.quotedLength quote cs)) := by
  obtain ⟨body, hbody, hcut⟩ := scanned quote cs
  obtain ⟨tail, hcut, htail⟩ : ∃ tail, cs.take (Scan.quotedLength quote cs) = body ++ tail ∧
      (tail = [quote] ∨ tail = [] ∨ tail = ['\\']) := by
    rcases hcut with hcut | hcut | hcut
    · exact ⟨_, hcut, .inl rfl⟩
    · exact ⟨_, by rw [hcut, List.append_nil], .inr (.inl rfl)⟩
    · exact ⟨_, hcut, .inr (.inr rfl)⟩
  rw [hcut]
  have hfirst : firstUnknown? (quote :: (body ++ tail)) = firstUnknown? body := by
    have htail : escapes tail = [] := by rcases htail with rfl | rfl | rfl <;> simp [escapes, escapes_cons hq]
    rw [firstUnknown?, escapes_cons hq, hbody.escapes_append, htail, List.append_nil, firstUnknown?]
  have hdecode := decode_cons quote (body ++ tail)
  rcases hbody.decodes hq with ⟨e, he, herror⟩ | ⟨hnone, v, hv⟩
  · rw [herror] at hdecode
    exact .of_unknownEscape hdecode (hfirst.trans he)
  · rw [hv] at hdecode
    obtain ⟨hopen, hcutEscape⟩ := not_enclosed hq hbody
    rcases htail with rfl | rfl | rfl
    · rw [unescape, if_pos rfl, if_pos rfl] at hdecode
      exact .of_value hdecode ⟨body, rfl, hbody⟩ (hfirst.trans hnone)
    · rw [List.append_nil] at hdecode hfirst ⊢
      exact .of_unterminated hdecode hopen (hfirst.trans hnone)
    · rw [unescape, if_neg hq.symm, if_pos rfl] at hdecode
      exact .of_unterminated hdecode hcutEscape (hfirst.trans hnone)

end Quoted

/-! ## Lines -/

namespace Text

theorem chomped_append {text : Text} (h : text.getLast? ≠ some '\r') (line : Text) :
    chomped (text ++ line) = text ++ chomped line := by
  rcases List.eq_nil_or_concat line with rfl | ⟨front, c, rfl⟩
  · simp [chomped, h]
  · rw [List.concat_eq_append, ← List.append_assoc]
    simp only [chomped, List.getLast?_concat, List.dropLast_concat]
    split <;> simp

/-- A text without line breaks is at the front of the first line. -/
theorem lines_front {text : Text} (hnewline : '\n' ∉ text) (hreturn : text.getLast? ≠ some '\r') (hne : text ≠ [])
    (rest : Text) : ∃ more others, lines (text ++ rest) = (text ++ more) :: others := by
  by_cases hbreak : '\n' ∈ rest
  · obtain ⟨line, rest, rfl, hline⟩ := List.eq_append_cons_of_mem hbreak
    refine ⟨chomped line, lines rest, ?_⟩
    rw [← List.append_assoc, lines_append, pieces_of_no_newline (by simp [hnewline, hline]), ← chomped_append hreturn]
    rfl
  · refine ⟨chomped rest, [], ?_⟩
    rw [← chomped_append hreturn]
    simp [lines, pieces_of_no_newline, hnewline, hbreak, hne]

end Text

namespace Scan

/-- A quote starts a literal wherever it stands. -/
theorem scanLine_quote {quote : Char} (hq : quote = '"' ∨ quote = '\'') (place : Nat → Location) (col : Nat) (cs : Text) :
    ∃ kind, (quote = '"' ∧ kind = .string ∨ quote = '\'' ∧ kind = .character) ∧
      scanLine place false col (quote :: cs) =
        (⟨kind, quote :: cs.take (quotedLength quote cs), place col⟩ ::
          (scanLine place false (col + 1 + quotedLength quote cs) (cs.drop (quotedLength quote cs))).1,
        (scanLine place false (col + 1 + quotedLength quote cs) (cs.drop (quotedLength quote cs))).2) := by
  rcases hq with rfl | rfl
  · exact ⟨.string, .inl ⟨rfl, rfl⟩, by simp [scanLine, lexeme, symbol?]⟩
  · exact ⟨.character, .inr ⟨rfl, rfl⟩, by simp [scanLine, lexeme, symbol?]⟩

end Scan

namespace Quoted

theorem Spelling.scanLine {quote : Char} {text v : Text} {kind : TokenKind} {value : Literal}
    (h : Spelling quote text v) (hv : Denotes quote v kind value) (place : Nat → Location) (col : Nat) (rest : Text) :
    Scan.scanLine place false col (quote :: (text ++ quote :: rest)) =
      (⟨kind, quote :: (text ++ [quote]), place col⟩ :: (Scan.scanLine place false (col + text.length + 2) rest).1,
        (Scan.scanLine place false (col + text.length + 2) rest).2) := by
  obtain ⟨kind', hkind, hscan⟩ := Scan.scanLine_quote hv.isQuote place col (text ++ quote :: rest)
  have hlength := h.quotedLength (quote_ne_backslash hv.isQuote) rest
  have htext : text ++ quote :: rest = (text ++ [quote]) ++ rest := by simp
  have hsame : kind' = kind := by cases hv <;> simpa using hkind
  rw [hscan, hlength, htext, hsame, List.take_left' (by simp), List.drop_left' (by simp), Nat.add_right_comm,
    Nat.add_assoc, Nat.add_assoc, ← Nat.add_assoc text.length]
  rfl

theorem Spelling.ofToken {quote : Char} {text v : Text} {kind : TokenKind} {value : Literal}
    (h : Spelling quote text v) (hv : Denotes quote v kind value) (loc : Location) :
    Literal.ofToken ⟨kind, quote :: (text ++ [quote]), loc⟩ = .ok value := by
  have hdecode : decode (quote :: (text ++ [quote])) = .ok v := by
    rw [decode_cons, h.unescape (quote_ne_backslash hv.isQuote)]
    rfl
  cases hv <;> simp [Literal.ofToken, hdecode, bind, Except.bind, pure, Except.pure]

/-- The scanner and the parser agree on quoted literals. A spelling of a text is scanned as one token, whatever follows it
on its line, and has the text as its value. At any quote on any line, the parser can read the token that is scanned there
just if the token goes on to its closing quote and all its escapes mean something; it says that the quote is missing just if
it is and all escapes mean something, and otherwise names the first escape that means nothing. -/
theorem scanned_decoded :
    (∀ quote text v kind value, Spelling quote text v → Denotes quote v kind value →
      (∀ place col rest, ∃ ts stillOpen, Scan.scanLine place false (col + text.length + 2) rest = (ts, stillOpen) ∧
        Scan.scanLine place false col (quote :: (text ++ quote :: rest)) =
          (⟨kind, quote :: (text ++ [quote]), place col⟩ :: ts, stillOpen)) ∧
      (∀ rest name, (Source.tokens ⟨quote :: (text ++ quote :: rest), name⟩).head? =
        some ⟨kind, quote :: (text ++ [quote]), ⟨name, 1, 1⟩⟩) ∧
      decode (quote :: (text ++ [quote])) = .ok v ∧
      ∀ loc, Literal.ofToken ⟨kind, quote :: (text ++ [quote]), loc⟩ = .ok value) ∧
    ∀ (cs : Text) (i : Nat) (quote : Char), quote = '"' ∨ quote = '\'' → cs[i]? = some quote →
      ∀ place col, ∃ t ts stillOpen, Scan.scanLine place false col (cs.drop i) = (t :: ts, stillOpen) ∧
        t.text <+: cs.drop i ∧ t.loc = place col ∧
        ((∃ v, decode t.text = .ok v) ↔ Enclosed quote t.text ∧ ∀ e ∈ escapes t.text, (escaped? e).isSome) ∧
        (∀ raw, decode t.text = .error (.unterminated raw) ↔
          raw = t.text ∧ ¬ Enclosed quote t.text ∧ ∀ e ∈ escapes t.text, (escaped? e).isSome) ∧
        ∀ e, decode t.text = .error (.unknownEscape e) ↔ firstUnknown? t.text = some e := by
  constructor
  · intro quote text v kind value h hv
    refine ⟨fun place col rest => ⟨_, _, rfl, h.scanLine hv place col rest⟩, fun rest name => ?_, ?_, h.ofToken hv⟩
    · have hq := hv.isQuote
      have hnewline : '\n' ∉ quote :: (text ++ [quote]) := by
        have hne : '\n' ≠ quote := by rcases hq with rfl | rfl <;> decide
        simp [hne, h.newline_not_mem]
      have hreturn : (quote :: (text ++ [quote])).getLast? ≠ some '\r' := by
        rw [← List.cons_append, List.getLast?_concat]
        rcases hq with rfl | rfl <;> decide
      obtain ⟨more, others, hlines⟩ := Text.lines_front hnewline hreturn (List.cons_ne_nil _ _) rest
      have htext : ∀ rest, quote :: (text ++ quote :: rest) = quote :: (text ++ [quote]) ++ rest := by simp
      rw [Source.tokens, htext rest, hlines, Scan.scanLines, ← htext more, h.scanLine hv]
      rfl
    · rw [decode_cons, h.unescape (quote_ne_backslash hv.isQuote)]
      rfl
  · intro cs i quote hq hi place col
    obtain ⟨hlt, hget⟩ := List.getElem?_eq_some_iff.1 hi
    have hdrop : cs.drop i = quote :: cs.drop (i + 1) := by rw [List.drop_eq_getElem_cons hlt, hget]
    obtain ⟨kind, -, hscan⟩ := Scan.scanLine_quote hq place col (cs.drop (i + 1))
    have hreads := reads_scanned (quote_ne_backslash hq) (cs.drop (i + 1))
    rw [hdrop]
    refine ⟨_, _, _, hscan, ?_, rfl, hreads.value, hreads.unterminated, hreads.unknownEscape⟩
    exact (List.prefix_cons_inj quote).2 (List.take_prefix _ _)

/-- A string with an escape, and a character with an unknown one and no closing quote. -/
theorem scanned_decoded_escapes :
    (Spelling '"' "a\\n" "a\n" ∧ Denotes '"' "a\n" .string (.str "a\n") ∧
      Literal.ofToken ⟨.string, "\"a\\n\"", ⟨"m", 1, 1⟩⟩ = .ok (.str "a\n")) ∧
    ("x'\\q" : Text)[1]? = some '\'' ∧ ∃ t ts stillOpen,
      Scan.scanLine (fun col => ⟨"m", 1, col⟩) false 2 "'\\q" = (t :: ts, stillOpen) ∧
      decode t.text = .error (.unknownEscape 'q') := by
  have hspelling : Spelling '"' "a\\n" "a\n" :=
    .raw (by decide) (by decide) (by decide) (.escaped (by rfl) .nil)
  refine ⟨⟨hspelling, .string _, ?_⟩, by rfl, ?_⟩
  · exact (scanned_decoded.1 _ _ _ _ _ hspelling (.string _)).2.2.2 ⟨"m", 1, 1⟩
  · obtain ⟨t, ts, stillOpen, hscan, -, -, -, -, hunknown⟩ :=
      scanned_decoded.2 "x'\\q" 1 '\'' (.inr rfl) (by rfl) (fun col => ⟨"m", 1, col⟩) 2
    have hline : Scan.scanLine (fun col => ⟨"m", 1, col⟩) false 2 "'\\q" =
        ([⟨.character, "'\\q", ⟨"m", 1, 2⟩⟩], false) := by with_unfolding_all rfl
    obtain ⟨rfl, -⟩ := List.cons.inj (Prod.mk.inj (hline.symm.trans hscan)).1
    exact ⟨_, ts, stillOpen, hscan, (hunknown 'q').2 (by rfl)⟩

end Quoted
end FrontEnd
