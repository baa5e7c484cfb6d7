import FrontEnd.Syntax.Literal
import FrontEnd.Token.Stream
import Mathlib.Tactic.SplitIfs

/-!
# Scanning what was spelled

* `Scan.exists_lexeme_of_mem_scanLines` : where tokens come from; `TokenStream.kind_of_mem_ofSources` : so none marks the
  end of the input;
* `Scan.Spells` : a text on one line has tokens with a given property, whatever follows it;
* `Spells.append`, `Spells.blank`, `Spells.mark`, `Spells.word`, `Spells.operator`, `Spells.number`, `Spells.quoted` :
  how such a text is put together; words, operators and numbers run on, so that a delimiter has to follow them;
* `Spells.tokens` : the tokens of a source with such a text.
-/

namespace FrontEnd

namespace Scan

/-! ## Kinds -/

theorem symbol?_ne_endOfInput {c : Char} {cs : Text} {k : TokenKind} {n : Nat} (h : symbol? c cs = some (k, n)) :
    k ≠ .endOfInput := by
  rintro rfl
  unfold symbol? at h
  split at h <;> simp at h

theorem wordKind_ne_endOfInput (word : Text) : wordKind word ≠ .endOfInput := by
  unfold wordKind
  cases h : reservedWords.lookup word with
  | none => simp
  | some k =>
    have hk : ∀ p ∈ reservedWords, p.2 ≠ .endOfInput := by decide
    obtain ⟨before, behind, hwords, -⟩ := List.lookup_eq_some_iff.1 h
    exact hk (word, k) (by rw [hwords]; exact List.mem_append_right _ List.mem_cons_self)

theorem lexeme_ne_endOfInput (c : Char) (cs : Text) : (lexeme c cs).1 ≠ .endOfInput := by
  unfold lexeme
  split
  · next found h => exact symbol?_ne_endOfInput h
  · split_ifs
    · simp
    · simp
    · unfold number
      dsimp only
      split <;> simp
    · exact wordKind_ne_endOfInput _
    · simp

/-- A token of a line has the kind and the extent of a lexeme. -/
theorem exists_lexeme_of_mem_scanLine {place : Nat → Location} {inComment : Bool} {col : Nat} {cs : Text} :
    ∀ t ∈ (scanLine place inComment col cs).1, ∃ c rest,
      t.kind = (lexeme c rest).1 ∧ t.text = c :: rest.take (lexeme c rest).2 := by
  fun_induction scanLine place inComment col cs with
  | case1 | case4 => simp
  | case2 | case3 | case5 | case6 => assumption
  | case7 col c rest _ _ _ kind more hlexeme tokens stillOpen hline ih =>
    intro t ht
    rw [hline] at ih
    rcases List.mem_cons.1 ht with rfl | ht
    · exact ⟨c, rest, by rw [hlexeme], by rw [hlexeme]⟩
    · exact ih t ht

theorem exists_lexeme_of_mem_scanLines {file : Text} {number : Nat} {inComment : Bool} {lines : List Text} :
    ∀ t ∈ scanLines file number inComment lines, ∃ c rest,
      t.kind = (lexeme c rest).1 ∧ t.text = c :: rest.take (lexeme c rest).2 := by
  induction lines generalizing number inComment with
  | nil => simp [scanLines]
  | cons line lines ih =>
    intro t ht
    rcases List.mem_append.1 ht with ht | ht
    · exact exists_lexeme_of_mem_scanLine t ht
    · exact ih t ht

theorem kind_of_mem_scanLines {file : Text} {number : Nat} {inComment : Bool} {lines : List Text} :
    ∀ t ∈ scanLines file number inComment lines, t.kind ≠ .endOfInput := by
  intro t ht
  obtain ⟨c, rest, hkind, -⟩ := exists_lexeme_of_mem_scanLines t ht
  exact hkind ▸ lexeme_ne_endOfInput c rest

end Scan

theorem TokenStream.kind_of_mem_ofSources (sources : List Source) :
    ∀ t ∈ (ofSources sources).ahead, t.kind ≠ .endOfInput := by
  intro t ht
  obtain ⟨source, -, hsource⟩ := List.mem_flatMap.1 ht
  exact Scan.kind_of_mem_scanLines t hsource

namespace Scan

/-! ## Texts with known tokens -/

/-- The text is on one line and has tokens that satisfy `holds`, whatever follows it. -/
structure Spells (text : Text) (holds : List Token → Prop) : Prop where
  oneLine : ∀ c ∈ text, c ≠ '\n' ∧ c ≠ '\r'
  scanned : ∀ place col rest, ∃ ts, holds ts ∧ scanLine place false col (text ++ rest) =
    (ts ++ (scanLine place false (col + text.length) rest).1, (scanLine place false (col + text.length) rest).2)

/-- What may follow a word, a number or an operator. -/
def delimiters : Text := [' ', '(', ')', ',', ':']

/-- The text starts with a delimiter. -/
def Delimited (text : Text) : Prop := ∃ d ∈ delimiters, text.head? = some d

/-- The signs that are tokens by themselves, whatever follows them. -/
def marks : List (Char × TokenKind) :=
  [('(', .leftParen), (')', .rightParen), ('{', .leftBrace), ('}', .rightBrace), (',', .comma), (';', .semicolon),
    (':', .colon)]

/-- Whether the text is a letter or underscore followed by letters, digits and underscores. -/
def isWord : Text → Bool
  | [] => false
  | c :: cs => isIdentStart c && cs.all isIdentRest

/-! ### Characters -/

theorem isIdentRest_of_isIdentStart {c : Char} (h : isIdentStart c) : isIdentRest c := by
  simp only [isIdentStart, isIdentRest, Char.isAlphanum, Bool.or_eq_true] at h ⊢
  exact h.elim (fun h => .inl (.inl h)) .inr

theorem isIdentRest_of_isDigit {c : Char} (h : c.isDigit) : isIdentRest c := by
  simp [isIdentRest, Char.isAlphanum, h]

theorem isDigit_of_isIdentStart {c : Char} (h : isIdentStart c) : c.isDigit = false := by
  rcases Bool.or_eq_true_iff.1 h with h | h
  · unfold Char.isAlpha Char.isUpper Char.isLower at h
    grind [Char.isDigit]
  · obtain rfl := beq_iff_eq.1 h
    rfl

theorem ne_of_isIdentRest {c d : Char} (h : isIdentRest c) (hd : isIdentRest d = false) : c ≠ d := by
  rintro rfl
  exact Bool.false_ne_true (hd.symm.trans h)

theorem symbol?_eq_none {c : Char} (h : isIdentRest c) (cs : Text) : symbol? c cs = none := by
  unfold symbol?
  split <;> first | rfl | exact absurd h (by decide)

theorem Delimited.cons {d : Char} {text : Text} (hd : d ∈ delimiters) : Delimited (d :: text) := ⟨d, hd, rfl⟩

theorem Delimited.takeWhile {text : Text} {p : Char → Bool} (h : Delimited text)
    (hp : delimiters.all fun d => !p d) (rest : Text) : (text ++ rest).takeWhile p = [] := by
  obtain ⟨d, hd, hhead⟩ := h
  obtain ⟨ds, rfl⟩ := List.head?_eq_some_iff.1 hhead
  have hno : p d = false := by simpa using List.all_eq_true.1 hp d hd
  simp [hno]

theorem Delimited.fractionLength {text : Text} (h : Delimited text) (rest : Text) :
    fractionLength (text ++ rest) = 0 := by
  obtain ⟨d, hd, hhead⟩ := h
  obtain ⟨ds, rfl⟩ := List.head?_eq_some_iff.1 hhead
  have hpoint : ∀ e ∈ delimiters, e ≠ '.' := by simp [delimiters]
  rw [List.cons_append, Scan.fractionLength]
  exact fun cs heq => hpoint d hd (List.cons.inj heq).1

theorem Delimited.exponentLength {text : Text} (h : Delimited text) (rest : Text) :
    exponentLength (text ++ rest) = 0 := by
  obtain ⟨d, hd, hhead⟩ := h
  obtain ⟨ds, rfl⟩ := List.head?_eq_some_iff.1 hhead
  have hletter : ∀ e ∈ delimiters, ¬ (e = 'e' ∨ e = 'E') := by simp [delimiters]
  simp [Scan.exponentLength, hletter d hd]

/-! ### Putting texts together -/

namespace Spells
variable {text text' : Text} {holds holds' : List Token → Prop}

theorem mono (h : Spells text holds) (himp : ∀ ts, holds ts → holds' ts) : Spells text holds' where
  oneLine := h.oneLine
  scanned place col rest := by
    obtain ⟨ts, hts, hscan⟩ := h.scanned place col rest
    exact ⟨ts, himp ts hts, hscan⟩

theorem nil : Spells [] (· = []) where
  oneLine := by simp
  scanned place col rest := ⟨[], rfl, rfl⟩

theorem append (h : Spells text holds) (h' : Spells text' holds') :
    Spells (text ++ text') (fun ts => ∃ us vs, ts = us ++ vs ∧ holds us ∧ holds' vs) where
  oneLine c hc := by
    rcases List.mem_append.1 hc with hc | hc
    · exact h.oneLine c hc
    · exact h'.oneLine c hc
  scanned place col rest := by
    obtain ⟨us, hus, hscan⟩ := h.scanned place col (text' ++ rest)
    obtain ⟨vs, hvs, hscan'⟩ := h'.scanned place (col + text.length) rest
    refine ⟨us ++ vs, ⟨us, vs, rfl, hus, hvs⟩, ?_⟩
    rw [List.append_assoc, hscan, hscan', List.length_append, List.append_assoc, Nat.add_assoc]

theorem blank (h : Spells text holds) : Spells (' ' :: text) holds where
  oneLine c hc := by
    rcases List.mem_cons.1 hc with rfl | hc
    · decide
    · exact h.oneLine c hc
  scanned place col rest := by
    obtain ⟨ts, hts, hscan⟩ := h.scanned place (col + 1) rest
    refine ⟨ts, hts, ?_⟩
    rw [List.cons_append, scanLine]
    · simp [hscan, Nat.add_comm, Nat.add_left_comm]
    · simp
    · simp

theorem lexeme {c : Char} {cs : Text} {kind : TokenKind} (h : Spells text holds)
    (hline : ∀ d ∈ c :: cs, d ≠ '\n' ∧ d ≠ '\r') (hblank : c ≠ ' ' ∧ c ≠ '\t')
    (hcomment : c = '/' → ∃ d, (cs ++ text).head? = some d ∧ d ≠ '/' ∧ d ≠ '*')
    (hlexeme : ∀ rest, Scan.lexeme c (cs ++ (text ++ rest)) = (kind, cs.length)) :
    Spells (c :: cs ++ text) (fun ts => ∃ t us, ts = t :: us ∧ t.kind = kind ∧ t.text = c :: cs ∧ holds us) where
  oneLine d hd := by
    rcases List.mem_append.1 hd with hd | hd
    · exact hline d hd
    · exact h.oneLine d hd
  scanned place col rest := by
    obtain ⟨ts, hts, hscan⟩ := h.scanned place (col + 1 + cs.length) rest
    refine ⟨⟨kind, c :: cs, place col⟩ :: ts, ⟨_, ts, rfl, rfl, rfl, hts⟩, ?_⟩
    have hno : ∀ e, c = '/' → (e = '/' ∨ e = '*') → ∀ tail, cs ++ (text ++ rest) ≠ e :: tail := by
      rintro e hc he tail heq
      obtain ⟨d, hd, hd1, hd2⟩ := hcomment hc
      have hhead : (cs ++ (text ++ rest)).head? = some d := by
        rw [← List.append_assoc, List.head?_append, hd]
        rfl
      rw [heq] at hhead
      cases hhead
      exact he.elim hd1 hd2
    have hcol : col + (c :: cs ++ text).length = col + 1 + cs.length + text.length := by
      simp only [List.length_append, List.length_cons]
      omega
    rw [hcol, List.cons_append, List.cons_append, List.append_assoc, scanLine, if_neg (by simpa using hblank)]
    · simp [hlexeme, hscan]
    · exact fun tail hc heq => hno _ hc (.inl rfl) tail heq
    · exact fun tail hc heq => hno _ hc (.inr rfl) tail heq

theorem mark (h : Spells text holds) (c : Char) (kind : TokenKind) (hm : (c, kind) ∈ marks) :
    Spells (c :: text) (fun ts => ∃ t us, ts = t :: us ∧ t.kind = kind ∧ holds us) := by
  have hmarks : ∀ p ∈ marks, (p.1 ≠ '\n' ∧ p.1 ≠ '\r') ∧ (p.1 ≠ ' ' ∧ p.1 ≠ '\t') ∧ p.1 ≠ '/' := by decide
  obtain ⟨hline, hblank, hslash⟩ := hmarks _ hm
  have hsymbol : ∀ rest, symbol? c rest = some (kind, 0) := by
    simp only [marks, List.mem_cons, Prod.mk.injEq, List.not_mem_nil, or_false] at hm
    rcases hm with ⟨rfl, rfl⟩ | ⟨rfl, rfl⟩ | ⟨rfl, rfl⟩ | ⟨rfl, rfl⟩ | ⟨rfl, rfl⟩ | ⟨rfl, rfl⟩ | ⟨rfl, rfl⟩ <;>
      exact fun _ => rfl
  have hlexeme : ∀ rest, Scan.lexeme c ([] ++ (text ++ rest)) = (kind, 0) := by
    intro rest
    rw [Scan.lexeme, hsymbol]
  refine (h.lexeme (by simpa using hline) hblank (fun hc => absurd hc hslash) hlexeme).mono ?_
  rintro ts ⟨t, us, rfl, hk, -, hus⟩
  exact ⟨t, us, rfl, hk, hus⟩

theorem word {w : Text} (h : Spells text holds) (hw : isWord w) (hd : Delimited text) :
    Spells (w ++ text) (fun ts => ∃ t us, ts = t :: us ∧ t.kind = wordKind w ∧ t.text = w ∧ holds us) := by
  cases w with
  | nil => cases hw
  | cons c cs =>
    obtain ⟨hc, hcs⟩ := Bool.and_eq_true_iff.1 hw
    have hrest := isIdentRest_of_isIdentStart hc
    have hall : ∀ d ∈ c :: cs, isIdentRest d := by
      rintro d hd
      rcases List.mem_cons.1 hd with rfl | hd
      · exact hrest
      · exact List.all_eq_true.1 hcs d hd
    apply h.lexeme
    · exact fun d hd => ⟨ne_of_isIdentRest (hall d hd) (by decide), ne_of_isIdentRest (hall d hd) (by decide)⟩
    · exact ⟨ne_of_isIdentRest hrest (by decide), ne_of_isIdentRest hrest (by decide)⟩
    · exact fun hslash => absurd hslash (ne_of_isIdentRest hrest (by decide))
    · intro rest
      have htake : (cs ++ (text ++ rest)).takeWhile isIdentRest = cs := by
        rw [List.takeWhile_append_of_pos (List.all_eq_true.1 hcs), hd.takeWhile (by decide), List.append_nil]
      rw [Scan.lexeme, symbol?_eq_none hrest]
      simp only [if_neg (ne_of_isIdentRest hrest (d := '"') (by decide)),
        if_neg (ne_of_isIdentRest hrest (d := '\'') (by decide)), isDigit_of_isIdentStart hc, hc, htake]
      rfl

theorem operator (op : Operator) (h : Spells text holds) (hd : Delimited text) :
    Spells (op.spelling ++ text) (fun ts => ∃ t us, ts = t :: us ∧ t.kind = .operator op ∧ holds us) := by
  obtain ⟨d, hd, hhead⟩ := hd
  obtain ⟨ds, rfl⟩ := List.head?_eq_some_iff.1 hhead
  have hspelling : ∃ c cs, op.spelling = c :: cs ∧ (c :: cs).all (fun e => e ≠ '\n' ∧ e ≠ '\r') ∧ (c ≠ ' ' ∧ c ≠ '\t') ∧
      (c = '/' → cs = []) ∧ ∀ rest, Scan.lexeme c (cs ++ (d :: ds ++ rest)) = (.operator op, cs.length) := by
    simp only [delimiters, List.mem_cons, List.not_mem_nil, or_false] at hd
    rcases hd with rfl | rfl | rfl | rfl | rfl <;> cases op <;>
      exact ⟨_, _, rfl, by decide, by decide, by decide, fun _ => rfl⟩
  obtain ⟨c, cs, heq, hline, hblank, hslash, hlexeme⟩ := hspelling
  rw [heq]
  have hline : ∀ e ∈ c :: cs, e ≠ '\n' ∧ e ≠ '\r' := by simpa only [List.all_eq_true, decide_eq_true_eq] using hline
  refine (h.lexeme hline hblank (fun hc => ?_) hlexeme).mono ?_
  · have hdelimiters : ∀ e ∈ delimiters, e ≠ '/' ∧ e ≠ '*' := by simp [delimiters]
    exact ⟨d, by rw [hslash hc]; rfl, hdelimiters d hd⟩
  · rintro ts ⟨t, us, rfl, hk, -, hus⟩
    exact ⟨t, us, rfl, hk, hus⟩

theorem number (n : Nat) (h : Spells text holds) (hd : Delimited text) :
    Spells (Text.ofNat n ++ text)
      (fun ts => ∃ t us, ts = t :: us ∧ t.kind = .integer ∧ t.text = Text.ofNat n ∧ holds us) := by
  have hdigits : ∀ d ∈ Text.ofNat n, d.isDigit := fun d hd => Nat.isDigit_of_mem_toDigits (by decide) (by decide) hd
  obtain ⟨c, cs, heq⟩ := List.exists_cons_of_ne_nil (Nat.toDigits_ne_nil (b := 10) (n := n))
  rw [Text.ofNat, heq] at hdigits ⊢
  have hrest : isIdentRest c := isIdentRest_of_isDigit (hdigits c List.mem_cons_self)
  apply h.lexeme
  · exact fun d hd => ⟨ne_of_isIdentRest (isIdentRest_of_isDigit (hdigits d hd)) (by decide),
      ne_of_isIdentRest (isIdentRest_of_isDigit (hdigits d hd)) (by decide)⟩
  · exact ⟨ne_of_isIdentRest hrest (by decide), ne_of_isIdentRest hrest (by decide)⟩
  · exact fun hslash => absurd hslash (ne_of_isIdentRest hrest (by decide))
  · intro rest
    have hlength : digitsLength (cs ++ (text ++ rest)) = cs.length := by
      rw [digitsLength, List.takeWhile_append_of_pos fun d hd => hdigits d (List.mem_cons_of_mem c hd),
        hd.takeWhile (by decide), List.append_nil]
    rw [Scan.lexeme, symbol?_eq_none hrest]
    simp only [if_neg (ne_of_isIdentRest hrest (d := '"') (by decide)),
      if_neg (ne_of_isIdentRest hrest (d := '\'') (by decide)), hdigits c List.mem_cons_self]
    simp [Scan.number, hlength, hd.fractionLength, hd.exponentLength]

/-- A quoted literal up to its closing quote, which is the last of its `contents`. -/
theorem quoted {quote : Char} {contents : Text} (h : Spells text holds) (hquote : quote = '"' ∨ quote = '\'')
    (hline : ∀ c ∈ contents, c ≠ '\n' ∧ c ≠ '\r')
    (hlength : ∀ rest, quotedLength quote (contents ++ rest) = contents.length) :
    Spells (quote :: contents ++ text) (fun ts => ∃ t us, ts = t :: us ∧
      t.kind = (if quote = '"' then .string else .character) ∧ t.text = quote :: contents ∧ holds us) := by
  apply h.lexeme
  · rintro c hc
    rcases List.mem_cons.1 hc with rfl | hc
    · rcases hquote with rfl | rfl <;> decide
    · exact hline c hc
  · rcases hquote with rfl | rfl <;> decide
  · rintro rfl
    simp at hquote
  · intro rest
    rcases hquote with rfl | rfl <;> simp [Scan.lexeme, symbol?, hlength]

theorem tokens (h : Spells text holds) (name : Text) : holds (Source.tokens ⟨text, name⟩) := by
  obtain ⟨ts, hts, hscan⟩ := h.scanned (fun col => ⟨name, 1, col⟩) 1 []
  have hnewline : '\n' ∉ text := fun hmem => (h.oneLine _ hmem).1 rfl
  have hnil : ∀ place col, scanLine place false col [] = ([], false) := fun place col => by simp [scanLine]
  rw [List.append_nil, hnil, List.append_nil] at hscan
  have htokens : Source.tokens ⟨text, name⟩ = ts := by
    unfold Source.tokens Text.lines
    rw [Text.pieces_of_no_newline hnewline]
    by_cases htext : text = []
    · subst htext
      rw [hnil] at hscan
      cases hscan
      rfl
    · have hreturn : text.getLast? ≠ some '\r' := fun hlast => (h.oneLine _ (List.mem_of_getLast? hlast)).2 rfl
      simp [htext, Text.chomped, hreturn, scanLines, hscan]
  rw [htokens]
  exact hts

end Spells
end Scan
end FrontEnd
