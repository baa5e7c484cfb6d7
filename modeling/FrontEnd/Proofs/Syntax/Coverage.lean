import FrontEnd.Proofs.Syntax.Scanning
import Mathlib.Data.List.Infix
import Mathlib.Data.List.TakeWhile

/-!
# The tokens of a source cover its text

* `Location.past` : the place reached behind a text; `Location.past_append`, `Location.past_oneLine` take it apart,
  `Location.le_past` says that it never goes back;
* `Separator` : what stands between tokens, a blank, a tab, a line break or a comment, in front of a given rest;
* `Covers` : a text from a place on is separators and just these tokens, each where it says it is;
  `Covers.occurs` gives the text in front of a token and behind it, `Covers.pairwise` the order of the tokens;
* `Scan.lexeme_length_le` : a token ends where its line ends at the latest;
* `Scan.Resumes` : the rest of a text inside or outside a block comment, which is all that the lines before leave to the
  next line; `Scan.resumes_scanLine` walks through one line, `Scan.resumes_scanLines` through a source;
* `Text.past_joined` : places in lines put together, and the line that such a place is on;
* `Source.tokens_partition` : what the tokens of a source are to its lines.
-/

namespace FrontEnd

/-! ## Places -/

namespace Location

/-- The place behind `text`, where `text` starts at `loc`. -/
def past (loc : Location) : Text → Location
  | [] => loc
  | c :: cs => past (if c = '\n' then ⟨loc.file, loc.line + 1, 1⟩ else { loc with col := loc.col + 1 }) cs

/-- `loc` is not behind `loc'` in the text of their file. -/
def NotBehind (loc loc' : Location) : Prop :=
  loc.line < loc'.line ∨ (loc.line = loc'.line ∧ loc.col ≤ loc'.col)

theorem past_append (loc : Location) (text text' : Text) : loc.past (text ++ text') = (loc.past text).past text' := by
  induction text generalizing loc with
  | nil => rfl
  | cons c cs ih => exact ih _

theorem past_oneLine {text : Text} (h : '\n' ∉ text) (loc : Location) :
    loc.past text = { loc with col := loc.col + text.length } := by
  induction text generalizing loc with
  | nil => simp [past]
  | cons c cs ih =>
    rw [List.mem_cons, not_or] at h
    rw [past, if_neg fun heq => h.1 heq.symm, ih h.2]
    simp only [List.length_cons, mk.injEq, true_and]
    omega

theorem NotBehind.trans {loc loc' loc'' : Location} (h : loc.NotBehind loc') (h' : loc'.NotBehind loc'') :
    loc.NotBehind loc'' := by
  unfold NotBehind at *
  omega

end Location

/-! ## Covered texts -/

/-- `gap`, in front of `rest`, separates tokens and belongs to none. A comment to the end of the line leaves the line
break to the rest; a block comment ends at the first `*/` behind its opening, or is open at the end of the text. -/
inductive Separator : (gap rest : Text) → Prop
  | blank {c : Char} {rest : Text} (hc : c = ' ' ∨ c = '\t') : Separator [c] rest
  | lineBreak {rest : Text} : Separator ['\n'] rest
  | lineComment {body rest : Text} (hbody : '\n' ∉ body) (hrest : rest = [] ∨ rest.head? = some '\n') :
    Separator ('/' :: '/' :: body) rest
  | blockComment {body rest : Text} (hbody : ¬ ['*', '/'] <:+: body ++ ['*']) :
    Separator ('/' :: '*' :: (body ++ ['*', '/'])) rest
  | openComment {body : Text} (hbody : ¬ ['*', '/'] <:+: body) : Separator ('/' :: '*' :: body) []

/-- A separator in front of a text says what the text starts with. -/
theorem Separator.starts {gap rest : Text} (h : Separator gap rest) :
    (∃ c tail, gap ++ rest = c :: tail ∧ (c = ' ' ∨ c = '\t' ∨ c = '\n')) ∨
      ∃ d tail, gap ++ rest = '/' :: d :: tail ∧ (d = '/' ∨ d = '*') := by
  cases h with
  | blank hc => exact .inl ⟨_, _, rfl, hc.elim .inl (.inr ∘ .inl)⟩
  | lineBreak => exact .inl ⟨_, _, rfl, .inr (.inr rfl)⟩
  | lineComment => exact .inr ⟨_, _, rfl, .inl rfl⟩
  | blockComment => exact .inr ⟨_, _, rfl, .inr rfl⟩
  | openComment => exact .inr ⟨_, _, rfl, .inr rfl⟩

/-- A text that starts at `loc` consists of separators and of the texts of the tokens, in this order. A token stands
where its location says, on one line, and starts where no separator does. -/
inductive Covers : Location → Text → List Token → Prop
  | nil {loc : Location} : Covers loc [] []
  | gap {loc : Location} (gap : Text) {rest : Text} {ts : List Token} (hgap : Separator gap rest)
    (hrest : Covers (loc.past gap) rest ts) : Covers loc (gap ++ rest) ts
  | token {t : Token} {rest : Text} {ts : List Token} (hne : t.text ≠ []) (hline : '\n' ∉ t.text)
    (hstart : ∀ gap behind, Separator gap behind → gap ++ behind ≠ t.text ++ rest)
    (hrest : Covers (t.loc.past t.text) rest ts) : Covers t.loc (t.text ++ rest) (t :: ts)

/-- `t` ends before `u` starts. -/
def Token.Before (t u : Token) : Prop :=
  t.loc.line < u.loc.line ∨ (t.loc.line = u.loc.line ∧ t.loc.col + t.text.length ≤ u.loc.col)

/-- `t` is on one of the lines, counted from 1, and its text is what that line has from the column of `t` on. -/
def Token.StandsIn (t : Token) (lines : List Text) : Prop :=
  ∃ i c : Nat, ∃ line : Text, t.loc.line = i + 1 ∧ t.loc.col = c + 1 ∧ lines[i]? = some line ∧ t.text <+: line.drop c

namespace Covers
variable {loc : Location} {text : Text} {ts : List Token}

theorem occurs (h : Covers loc text ts) :
    ∀ t ∈ ts, t.text ≠ [] ∧ '\n' ∉ t.text ∧
      ∃ front behind, text = front ++ (t.text ++ behind) ∧ t.loc = loc.past front := by
  induction h with
  | nil => simp
  | gap gap hgap hrest ih =>
    intro t ht
    obtain ⟨hne, hline, front, behind, heq, hloc⟩ := ih t ht
    refine ⟨hne, hline, gap ++ front, behind, ?_, ?_⟩
    · rw [heq, List.append_assoc]
    · rw [hloc, Location.past_append]
  | @token u rest ts hne hline _ _ ih =>
    intro t ht
    by_cases htu : t = u
    · subst htu
      exact ⟨hne, hline, [], rest, rfl, rfl⟩
    · obtain ⟨hne', hline', front, behind, heq, hloc⟩ := ih t (List.mem_of_ne_of_mem htu ht)
      refine ⟨hne', hline', u.text ++ front, behind, ?_, ?_⟩
      · rw [heq, List.append_assoc]
      · rw [hloc, Location.past_append]

end Covers

namespace Scan

/-! ## Extents of lexemes -/

theorem symbol?_length_le {c : Char} {cs : Text} {found : TokenKind × Nat} (h : symbol? c cs = some found) :
    found.2 ≤ cs.length := by
  unfold symbol? at h
  split at h <;> cases h <;> simp

theorem quotedLength_le (quote : Char) (cs : Text) : quotedLength quote cs ≤ cs.length := by
  fun_induction quotedLength quote cs with
  | case1 => simp
  | case2 => simp
  | case3 c cs ih => simp only [List.length_cons]; omega
  | case4 => simp
  | case5 c cs _ _ _ ih => simp only [List.length_cons]; omega

theorem digitsLength_le (cs : Text) : digitsLength cs ≤ cs.length := (List.takeWhile_prefix _).length_le

theorem fractionLength_le (cs : Text) : fractionLength cs ≤ cs.length := by
  unfold fractionLength
  split
  · next cs =>
    have := digitsLength_le cs
    simp only [List.length_cons]
    split_ifs <;> omega
  · omega

theorem signLength_le (cs : Text) : signLength cs ≤ cs.length := by
  unfold signLength
  split <;> simp

theorem exponentLength_le (cs : Text) : exponentLength cs ≤ cs.length := by
  cases cs with
  | nil => exact Nat.le_refl _
  | cons c cs =>
    have hsign := signLength_le cs
    have hdigits := digitsLength_le (cs.drop (signLength cs))
    simp only [List.length_drop] at hdigits
    simp only [exponentLength, List.length_cons]
    split_ifs <;> omega

theorem number_length_le (cs : Text) : (number cs).2 ≤ cs.length := by
  have hwhole := digitsLength_le cs
  have hfraction := fractionLength_le (cs.drop (digitsLength cs))
  have hexponent := exponentLength_le (cs.drop (digitsLength cs + fractionLength (cs.drop (digitsLength cs))))
  simp only [List.length_drop] at hfraction hexponent
  show digitsLength cs + fractionLength (cs.drop (digitsLength cs)) + exponentLength _ ≤ cs.length
  omega

theorem lexeme_length_le (c : Char) (cs : Text) : (lexeme c cs).2 ≤ cs.length := by
  unfold lexeme
  split
  · next found h => exact symbol?_length_le h
  · split_ifs
    · exact quotedLength_le _ _
    · exact quotedLength_le _ _
    · exact number_length_le cs
    · exact (List.takeWhile_prefix _).length_le
    · exact Nat.zero_le _

/-! ## From line to line -/

/-- What may follow inside an open block comment: its end and a covered rest, or nothing but the comment. -/
inductive Closes : Location → Text → List Token → Prop
  | closed {loc : Location} (body : Text) {rest : Text} {ts : List Token} (hbody : ¬ ['*', '/'] <:+: body ++ ['*'])
    (hrest : Covers (loc.past (body ++ ['*', '/'])) rest ts) : Closes loc (body ++ ['*', '/'] ++ rest) ts
  | unclosed {loc : Location} {body : Text} (hbody : ¬ ['*', '/'] <:+: body) : Closes loc body []

/-- What follows a place in a text, where a block comment may be open. -/
def Resumes (inComment : Bool) (loc : Location) (text : Text) (ts : List Token) : Prop :=
  if inComment then Closes loc text ts else Covers loc text ts

/-- One more character of a block comment, where it does not end it. -/
theorem Closes.cons {loc : Location} {c : Char} {text : Text} {ts : List Token}
    (hc : c = '*' → text.head? ≠ some '/') (h : Closes (loc.past [c]) text ts) : Closes loc (c :: text) ts := by
  have hopen : ∀ body : Text, body.head? = text.head? → ¬ ['*', '/'] <:+: body → ¬ ['*', '/'] <:+: c :: body := by
    intro body hhead hbody hclose
    rcases List.infix_cons_iff.1 hclose with ⟨tail, heq⟩ | hclose
    · obtain ⟨rfl, rfl⟩ := List.cons.inj heq
      exact hc rfl hhead.symm
    · exact hbody hclose
  cases h with
  | closed body hbody hrest =>
    refine Closes.closed (c :: body) (hopen _ ?_ hbody) ?_
    · cases body <;> rfl
    · rwa [List.cons_append, ← List.singleton_append, Location.past_append]
  | unclosed hbody => exact .unclosed (hopen _ rfl hbody)

theorem Closes.opening {loc : Location} {text : Text} {ts : List Token} (h : Closes (loc.past ['/', '*']) text ts) :
    Covers loc ('/' :: '*' :: text) ts := by
  cases h with
  | closed body hbody hrest =>
    refine Covers.gap ('/' :: '*' :: (body ++ ['*', '/'])) (.blockComment hbody) ?_
    rwa [show '/' :: '*' :: (body ++ ['*', '/']) = ['/', '*'] ++ (body ++ ['*', '/']) from rfl, Location.past_append]
  | unclosed hbody =>
    rw [← List.append_nil text]
    exact Covers.gap ('/' :: '*' :: text) (.openComment hbody) .nil

theorem Resumes.lineBreak {inComment : Bool} {loc : Location} {text : Text} {ts : List Token}
    (h : Resumes inComment (loc.past ['\n']) text ts) : Resumes inComment loc ('\n' :: text) ts := by
  cases inComment with
  | true => exact Closes.cons (by simp) h
  | false => exact Covers.gap ['\n'] .lineBreak h

/-- One line, from column `col` on: if what follows the line is covered when the line is left as it is, then so is
all from `col` on. -/
theorem resumes_scanLine {file : Text} {number : Int} (place : Nat → Location) (inComment : Bool) (col : Nat)
    {cs : Text} (text : Text) (us : List Token) (hplace : ∀ col, place col = ⟨file, number, col⟩) (hline : '\n' ∉ cs)
    (htext : ∀ c, text.head? = some c → c = '\n')
    (h : Resumes (scanLine place inComment col cs).2 ((place col).past cs) text us) :
    Resumes inComment (place col) (cs ++ text) ((scanLine place inComment col cs).1 ++ us) := by
  have hpast : ∀ {col : Nat} {t : Text}, '\n' ∉ t → (place col).past t = place (col + t.length) := by
    intro col t ht
    rw [Location.past_oneLine ht, hplace, hplace, Int.natCast_add]
  have hhead : ∀ {rest : Text} {d : Char}, d ≠ '\n' → (rest ++ text).head? = some d → ∃ tail, rest = d :: tail := by
    intro rest d hd heq
    cases rest with
    | nil => exact absurd (htext d heq) hd
    | cons e tail => exact ⟨tail, by rw [Option.some.inj heq]⟩
  fun_induction scanLine place inComment col cs with
  | case1 => exact h
  | case2 col rest ih => -- the end of the open comment
    refine Closes.closed [] (by decide) ?_
    rw [show [] ++ ['*', '/'] = ['*', '/'] from rfl, hpast (by decide)]
    refine ih (fun hmem => hline (by simp [hmem])) ?_
    rwa [show '*' :: '/' :: rest = ['*', '/'] ++ rest from rfl, Location.past_append, hpast (by decide)] at h
  | case3 col c rest hclose ih => -- inside a comment
    rw [List.mem_cons, not_or] at hline
    have hc : (place col).past [c] = place (col + 1) := hpast (by simpa using hline.1)
    refine Closes.cons (fun hstar hslash => ?_) ?_
    · obtain ⟨tail, heq⟩ := hhead (by decide) hslash
      exact hclose tail hstar heq
    · rw [hc]
      refine ih hline.2 ?_
      rwa [← List.singleton_append, Location.past_append, hc] at h
  | case4 col rest => -- a comment to the end of the line
    refine Covers.gap ('/' :: '/' :: rest) (.lineComment (fun hmem => hline (by simp [hmem])) ?_) h
    cases text with
    | nil => exact .inl rfl
    | cons c tail => exact .inr (congrArg some (htext c rfl))
  | case5 col rest ih => -- a comment is opened
    refine Closes.opening ?_
    rw [hpast (by decide)]
    refine ih (fun hmem => hline (by simp [hmem])) ?_
    rwa [show '/' :: '*' :: rest = ['/', '*'] ++ rest from rfl, Location.past_append, hpast (by decide)] at h
  | case6 col c rest _ _ hblank ih => -- a blank
    rw [List.mem_cons, not_or] at hline
    have hc : (place col).past [c] = place (col + 1) := hpast (by simpa using hline.1)
    refine Covers.gap [c] (.blank hblank) ?_
    rw [hc]
    refine ih hline.2 ?_
    rwa [← List.singleton_append, Location.past_append, hc] at h
  | case7 col c rest hcomment hblock hblank kind more hlexeme tokens stillOpen hscan ih => -- a token
    have hmore : more ≤ rest.length := by simpa [hlexeme] using lexeme_length_le c rest
    have hsplit : c :: rest = (c :: rest.take more) ++ rest.drop more := by simp
    rw [hsplit, List.mem_append, not_or] at hline
    have hc : (place col).past (c :: rest.take more) = place (col + 1 + more) := by
      rw [hpast hline.1, List.length_cons, List.length_take, Nat.min_eq_left hmore, Nat.add_assoc, Nat.add_comm 1]
    have hcovers : Covers (place (col + 1 + more)) (rest.drop more ++ text) (tokens ++ us) := by
      rw [hscan] at ih
      refine ih hline.2 ?_
      rwa [hsplit, Location.past_append, hc] at h
    show Covers (place col) (c :: rest ++ text) (⟨kind, c :: rest.take more, place col⟩ :: (tokens ++ us))
    rw [hsplit, List.append_assoc]
    refine Covers.token (t := ⟨kind, c :: rest.take more, place col⟩) (by simp) hline.1 ?_ (by rwa [hc])
    intro gap behind hgap heq
    rw [← List.append_assoc, ← hsplit] at heq
    rcases hgap.starts with ⟨d, tail, hd, hsep⟩ | ⟨d, tail, hd, hsep⟩
    · obtain ⟨rfl, -⟩ := List.cons.inj (hd.symm.trans heq)
      rcases hsep with hsep | hsep | hsep
      · exact hblank (.inl hsep)
      · exact hblank (.inr hsep)
      · exact hline.1 (hsep ▸ List.mem_cons_self)
    · obtain ⟨rfl, htail⟩ := List.cons.inj (hd.symm.trans heq)
      obtain ⟨tail', heq'⟩ := @hhead rest d (by rcases hsep with rfl | rfl <;> decide)
        (by rw [show rest ++ text = d :: tail from htail.symm, List.head?_cons])
      rcases hsep with rfl | rfl
      · exact hcomment tail' rfl heq'
      · exact hblock tail' rfl heq'

/-- The lines from number `number` on, in a state that the lines before leave. -/
theorem resumes_scanLines (file : Text) (number : Nat) (inComment : Bool) {lines : List Text}
    (hlines : ∀ line ∈ lines, '\n' ∉ line) :
    Resumes inComment ⟨file, number, 1⟩ (Text.joined ['\n'] lines) (scanLines file number inComment lines) := by
  induction lines generalizing number inComment with
  | nil =>
    cases inComment with
    | true => exact Closes.unclosed (by decide)
    | false => exact Covers.nil
  | cons line lines ih =>
    have hline := hlines line List.mem_cons_self
    have hrest := ih (number + 1) (scanLine (fun col => ⟨file, number, col⟩) inComment 1 line).2
      (fun line hmem => hlines line (List.mem_cons_of_mem _ hmem))
    rw [scanLines]
    cases lines with
    | nil =>
      have hscan := resumes_scanLine (fun col => ⟨file, number, col⟩) inComment 1 [] []
        (fun _ => rfl) hline (by simp) ?_
      · simpa [Text.joined, scanLines] using hscan
      · cases h : (scanLine (fun col => ⟨file, number, col⟩) inComment 1 line).2 with
        | true => exact Closes.unclosed (by decide)
        | false => exact Covers.nil
    | cons next lines =>
      have hscan := resumes_scanLine (fun col => ⟨file, number, col⟩) inComment 1
        ('\n' :: Text.joined ['\n'] (next :: lines))
        (scanLines file (number + 1) (scanLine (fun col => ⟨file, number, col⟩) inComment 1 line).2 (next :: lines))
        (fun _ => rfl) hline (by simp) ?_
      · simpa [Text.joined, List.intercalate] using hscan
      · refine Resumes.lineBreak ?_
        rwa [Location.past_oneLine hline]

end Scan

/-! ## Lines put together -/

namespace Text

theorem newline_not_mem_of_mem_pieces (t : Text) : ∀ piece ∈ t.pieces, '\n' ∉ piece := by
  fun_induction pieces t with
  | case1 t h =>
    intro piece hmem hnewline
    obtain rfl := List.mem_singleton.1 hmem
    simpa using List.dropWhile_eq_nil_iff.1 h '\n' hnewline
  | case2 t c rest h this ih =>
    intro piece hmem hnewline
    rcases List.mem_cons.1 hmem with rfl | hmem
    · simpa using List.mem_takeWhile_imp hnewline
    · exact ih piece hmem hnewline

theorem chomped_subset (line : Text) : line.chomped ⊆ line := by
  unfold chomped
  split
  · exact List.dropLast_subset line
  · exact List.Subset.refl line

theorem newline_not_mem_of_mem_lines (t : Text) : ∀ line ∈ t.lines, '\n' ∉ line := by
  intro line hmem hnewline
  obtain ⟨piece, hpiece, rfl⟩ := List.mem_map.1 hmem
  refine newline_not_mem_of_mem_pieces t piece ?_ (chomped_subset piece hnewline)
  split at hpiece
  · exact List.mem_of_mem_dropLast hpiece
  · exact hpiece

/-- A place in lines put together is in one of them, and what follows it starts with the rest of this line. -/
theorem past_joined {lines : List Text} (hlines : ∀ line ∈ lines, '\n' ∉ line) {front behind : Text} (file : Text)
    (number : Int) (h : joined ['\n'] lines = front ++ behind) (hbehind : behind ≠ []) :
    ∃ i c : Nat, ∃ line tail : Text, lines[i]? = some line ∧ behind = line.drop c ++ tail ∧
      (∀ d, tail.head? = some d → d = '\n') ∧ Location.past ⟨file, number, 1⟩ front = ⟨file, number + i, c + 1⟩ := by
  induction lines generalizing front number with
  | nil => simp_all [joined, List.intercalate]
  | cons line lines ih =>
    have hline := hlines line List.mem_cons_self
    have htail : ∃ tail, joined ['\n'] (line :: lines) = line ++ tail ∧
        (tail = [] ∨ tail = '\n' :: joined ['\n'] lines) := by
      cases lines with
      | nil => exact ⟨[], by simp [joined, List.intercalate], .inl rfl⟩
      | cons next lines => exact ⟨_, by simp [joined, List.intercalate], .inr rfl⟩
    obtain ⟨tail, hjoined, htail⟩ := htail
    have hhere : ∀ inner, line = front ++ inner → behind = inner ++ tail →
        ∃ i c : Nat, ∃ line' tail : Text, (line :: lines)[i]? = some line' ∧ behind = line'.drop c ++ tail ∧
          (∀ d, tail.head? = some d → d = '\n') ∧
          Location.past ⟨file, number, 1⟩ front = ⟨file, number + i, c + 1⟩ := by
      intro inner heq hinner
      refine ⟨0, front.length, line, tail, rfl, by simp [heq, hinner], ?_, ?_⟩
      · rcases htail with rfl | rfl <;> simp
      · rw [heq, List.mem_append, not_or] at hline
        rw [Location.past_oneLine hline.1]
        simp [Int.add_comm]
    rw [hjoined, List.append_eq_append_iff] at h
    rcases h with ⟨rest, hfront, hrest⟩ | ⟨inner, heq, hinner⟩
    · cases rest with
      | nil => exact hhere [] (by rw [hfront, List.append_nil, List.append_nil]) hrest.symm
      | cons c rest =>
        rcases htail with rfl | rfl
        · cases hrest
        · obtain ⟨rfl, hjoin⟩ := List.cons.inj hrest
          obtain ⟨i, c, next, tail, hi, hbehind, htail, hpast⟩ :=
            ih (fun line hmem => hlines line (List.mem_cons_of_mem _ hmem)) (number + 1) hjoin
          refine ⟨i + 1, c, next, tail, hi, hbehind, htail, ?_⟩
          rw [hfront, Location.past_append, Location.past_oneLine hline, Location.past, if_pos rfl, hpast]
          simp only [Location.mk.injEq, true_and, and_true]
          omega
    · exact hhere inner heq hinner

end Text

namespace Source

theorem covers (s : Source) : Covers ⟨s.name, 1, 1⟩ (Text.joined ['\n'] s.text.lines) s.tokens :=
  Scan.resumes_scanLines s.name 1 false s.text.newline_not_mem_of_mem_lines

theorem placed (s : Source) : ∀ t ∈ s.tokens, t.text ≠ [] ∧ t.loc.file = s.name ∧ t.StandsIn s.text.lines := by
  intro t ht
  obtain ⟨hne, hnewline, front, behind, htext, hloc⟩ := s.covers.occurs t ht
  obtain ⟨i, c, line, tail, hline, hbehind, htail, hpast⟩ :=
    Text.past_joined s.text.newline_not_mem_of_mem_lines s.name 1 htext (by simp [hne])
  rw [hpast] at hloc
  refine ⟨hne, by rw [hloc], i, c, line, ?_, ?_, hline, ?_⟩
  · rw [hloc, Int.add_comm]
  · rw [hloc]
  · -- a text without line breaks cannot reach behind the line it starts in
    rcases List.append_eq_append_iff.1 hbehind with ⟨rest, heq, -⟩ | ⟨rest, heq, hrest⟩
    · exact ⟨rest, heq.symm⟩
    · cases rest with
      | nil => exact ⟨[], by rw [heq, List.append_nil, List.append_nil]⟩
      | cons d rest =>
        obtain rfl := htail d (by rw [hrest]; rfl)
        exact absurd (by simp [heq]) hnewline

end Source
end FrontEnd
