import FrontEnd.Proofs.Syntax.Coverage
import FrontEnd.Proofs.Syntax.Quotation

/-!
# Comments that are left open

* `Scan.lexeme_gap` : a token that ends in front of a blank or a `/` does not depend on which of them it is, or on what
  follows;
* `Scan.scanLine_front`, `Scan.scanLines_front` : where a comment is left open, the tokens are those in front of it;
* `Source.tokens_front` : a source that leaves a comment open is scanned as if it ended there.
-/

namespace FrontEnd
namespace Scan

/-! ## The extent of a token -/

/-- A character that ends every token in front of it but a literal: a blank, or the first one of a comment. -/
def IsGap (d : Char) : Prop := d = ' ' ∨ d = '/'

section
variable {c d d' : Char} {xs ys ys' : Text}

theorem symbol?_gap (hd : IsGap d) : symbol? c (d :: ys) = symbol? c [] := by
  rcases hd with rfl | rfl <;> (unfold symbol?; split <;> simp_all)

/-- A symbol is at most two characters long. -/
theorem symbol?_cons (x : Char) (cs cs' : Text) : symbol? c (x :: cs) = symbol? c (x :: cs') := by
  unfold symbol?
  split <;> simp_all

theorem takeWhile_gap {p : Char → Bool} (hd : p d = false) : (xs ++ d :: ys).takeWhile p = xs.takeWhile p := by
  induction xs with
  | nil => simp [hd]
  | cons x xs ih => simp [List.takeWhile_cons, ih]

theorem digitsLength_gap (hd : IsGap d) : digitsLength (xs ++ d :: ys) = digitsLength xs := by
  rw [digitsLength, takeWhile_gap, digitsLength]
  rcases hd with rfl | rfl <;> decide

theorem fractionLength_gap (hd : IsGap d) : fractionLength (xs ++ d :: ys) = fractionLength xs := by
  cases xs with
  | nil => rcases hd with rfl | rfl <;> rfl
  | cons x xs =>
    by_cases hx : x = '.'
    · subst hx
      rw [List.cons_append, fractionLength, fractionLength, digitsLength_gap hd]
    · simp [fractionLength, hx]

theorem signLength_gap (hd : IsGap d) : signLength (xs ++ d :: ys) = signLength xs := by
  cases xs with
  | nil => rcases hd with rfl | rfl <;> rfl
  | cons x xs =>
    rw [List.cons_append]
    unfold signLength
    split <;> simp_all

theorem exponentLength_gap (hd : IsGap d) : exponentLength (xs ++ d :: ys) = exponentLength xs := by
  cases xs with
  | nil => rcases hd with rfl | rfl <;> simp [exponentLength]
  | cons x xs =>
    rw [List.cons_append, exponentLength, exponentLength, signLength_gap hd,
      List.drop_append_of_le_length (signLength_le xs), digitsLength_gap hd]

theorem number_gap (hd : IsGap d) : number (xs ++ d :: ys) = number xs := by
  have hwhole := digitsLength_le xs
  have hfraction := fractionLength_le (xs.drop (digitsLength xs))
  rw [List.length_drop] at hfraction
  unfold number
  dsimp only
  rw [digitsLength_gap hd, List.drop_append_of_le_length hwhole, fractionLength_gap hd,
    List.drop_append_of_le_length (by omega), exponentLength_gap hd]

theorem quotedLength_pos (quote x : Char) (cs : Text) : 0 < quotedLength quote (x :: cs) := by
  unfold quotedLength
  split <;> first | omega | (split_ifs <;> omega) | simp_all

/-- A literal that ends in front of a place does not depend on what is there. -/
theorem quotedLength_gap {quote : Char} (h : quotedLength quote (xs ++ d :: ys) ≤ xs.length) :
    quotedLength quote (xs ++ d' :: ys') = quotedLength quote (xs ++ d :: ys) := by
  fun_induction quotedLength quote xs with
  | case1 => exact absurd h (quotedLength_pos quote d ys).not_ge
  | case2 =>
    simp only [List.cons_append, List.nil_append, quotedLength, List.length_singleton] at h
    omega
  | case3 x cs ih =>
    simp only [List.cons_append, quotedLength, List.length_cons] at h ⊢
    rw [ih (by omega)]
  | case4 cs hno hno' =>
    have hx : quote ≠ '\\' := ne_backslash hno hno'
    rw [List.cons_append, List.cons_append, quotedLength_cons hx, quotedLength_cons hx, if_pos rfl, if_pos rfl]
  | case5 x cs hno hno' hne ih =>
    have hx : x ≠ '\\' := ne_backslash hno hno'
    rw [List.cons_append, quotedLength_cons hx, if_neg hne, List.length_cons] at h
    rw [List.cons_append, List.cons_append, quotedLength_cons hx, quotedLength_cons hx, ih (by omega)]

theorem lexeme_gap (hd : IsGap d) (hd' : IsGap d') (h : (lexeme c (xs ++ d :: ys)).2 ≤ xs.length) :
    lexeme c (xs ++ d' :: ys') = lexeme c (xs ++ d :: ys) := by
  have hsymbol : symbol? c (xs ++ d' :: ys') = symbol? c (xs ++ d :: ys) := by
    cases xs with
    | nil => rw [List.nil_append, List.nil_append, symbol?_gap hd, symbol?_gap hd']
    | cons x xs => exact symbol?_cons x _ _
  have hword : ∀ {d ys}, IsGap d → (xs ++ d :: ys).takeWhile isIdentRest = xs.takeWhile isIdentRest := by
    intro d ys hd
    refine takeWhile_gap ?_
    rcases hd with rfl | rfl <;> decide
  unfold lexeme at h ⊢
  rw [hsymbol, number_gap hd, number_gap hd', hword hd, hword hd']
  split at h
  · rfl
  · split_ifs at h ⊢
    · rw [quotedLength_gap h]
    · rw [quotedLength_gap h]
    all_goals rfl

end

/-! ## Lines -/

section
variable {place : Nat → Location} {inComment : Bool} {col : Nat} {cs : Text}

theorem eq_cons_of_append_blank {front rest : Text} {x : Char} (h : front ++ [' '] = x :: rest) (hx : x ≠ ' ') :
    ∃ front', front = x :: front' := by
  cases front with
  | nil => exact absurd (List.cons.inj h).1.symm hx
  | cons y front => exact ⟨front, by rw [(List.cons.inj h).1]⟩

/-- A line leaves a comment open that is open all along, or that it opens behind its last token. -/
theorem scanLine_front (h : (scanLine place inComment col cs).2) :
    (inComment ∧ (scanLine place inComment col cs).1 = []) ∨ ∃ front body, cs = front ++ '/' :: '*' :: body ∧
      scanLine place inComment col (front ++ [' ']) = ((scanLine place inComment col cs).1, false) := by
  fun_induction scanLine place inComment col cs with
  | case1 => exact .inl ⟨h, rfl⟩
  | case2 col rest ih =>
    obtain ⟨⟨⟩, -⟩ | ⟨front, body, rfl, hfront⟩ := ih h
    exact .inr ⟨'*' :: '/' :: front, body, rfl, by rw [List.cons_append, List.cons_append, scanLine, hfront]⟩
  | case3 col c rest hclose ih =>
    obtain ⟨-, htokens⟩ | ⟨front, body, rfl, hfront⟩ := ih h
    · exact .inl ⟨rfl, htokens⟩
    · refine .inr ⟨c :: front, body, rfl, ?_⟩
      rw [List.cons_append, scanLine, hfront]
      intro rest hc hrest
      obtain ⟨front, rfl⟩ := eq_cons_of_append_blank hrest (by decide)
      exact hclose _ hc rfl
  | case4 col rest => cases h
  | case5 col rest ih =>
    right
    obtain ⟨-, htokens⟩ | ⟨front, body, rfl, hfront⟩ := ih h
    · refine ⟨[], rest, rfl, ?_⟩
      rw [htokens]
      simp [scanLine]
    · exact ⟨'/' :: '*' :: front, body, rfl, by rw [List.cons_append, List.cons_append, scanLine, hfront]⟩
  | case6 col c rest hline hblock hblank ih =>
    right
    obtain ⟨⟨⟩, -⟩ | ⟨front, body, rfl, hfront⟩ := ih h
    refine ⟨c :: front, body, rfl, ?_⟩
    rw [List.cons_append, scanLine, if_pos hblank, hfront] <;> rcases hblank with rfl | rfl <;> simp
  | case7 col c rest hline hblock hblank kind more hlexeme tokens stillOpen hscan ih =>
    right
    obtain rfl : stillOpen = true := h
    rw [hscan] at ih
    obtain ⟨⟨⟩, -⟩ | ⟨front, body, hdrop, hfront⟩ := ih rfl
    have hlength : (rest.take more).length = more := by
      have := lexeme_length_le c rest
      rw [hlexeme] at this
      rw [List.length_take, min_eq_left this]
    have hrest : rest = (rest.take more ++ front) ++ '/' :: '*' :: body := by
      rw [List.append_assoc, ← hdrop, List.take_append_drop]
    have hsame : lexeme c ((rest.take more ++ front) ++ [' ']) = (kind, more) := by
      rw [lexeme_gap (.inr rfl) (.inl rfl), ← hrest, hlexeme]
      rw [← hrest, hlexeme, List.length_append, hlength]
      exact Nat.le_add_right ..
    refine ⟨c :: (rest.take more ++ front), body, by rw [List.cons_append, ← hrest], ?_⟩
    rw [List.cons_append, scanLine, if_neg hblank, hsame]
    · simp only [List.append_assoc]
      rw [List.drop_left' hlength, List.take_left' hlength, hfront]
    · intro tail hc heq
      obtain ⟨front', hfront'⟩ := eq_cons_of_append_blank heq (by decide)
      exact hline _ hc (hfront' ▸ hrest)
    · intro tail hc heq
      obtain ⟨front', hfront'⟩ := eq_cons_of_append_blank heq (by decide)
      exact hblock _ hc (hfront' ▸ hrest)

end

end Scan

/-! ## Texts -/

namespace Text

theorem lines_of_no_newline {t : Text} (h : '\n' ∉ t) (hne : t ≠ []) : lines t = [chomped t] := by
  simp [lines, pieces_of_no_newline h, hne]

theorem chomped_prefix (line : Text) : line.chomped <+: line := by
  unfold chomped
  split
  · exact List.dropLast_prefix line
  · exact List.prefix_rfl

/-- A line that ends in a blank is not shortened. -/
theorem lines_append_blank {line : Text} (h : '\n' ∉ line) : lines (line ++ [' ']) = [line ++ [' ']] := by
  rw [lines_of_no_newline (by simpa using h) (by simp), chomped, if_neg (by simp)]

end Text

namespace Scan

theorem scanLine_front_chomped (file : Text) (number : Nat) {inComment : Bool} {line : Text} (hline : '\n' ∉ line)
    (h : leavesOpen inComment [line.chomped]) :
    (inComment ∧ scanLines file number inComment [line.chomped] = []) ∨ ∃ front body,
      line = front ++ '/' :: '*' :: body ∧ leavesOpen inComment (front ++ [' ']).lines = false ∧
      scanLines file number inComment (front ++ [' ']).lines = scanLines file number inComment [line.chomped] := by
  rw [leavesOpen, leavesOpen, ← scanLine_open fun col => ⟨file, number, col⟩] at h
  obtain ⟨hin, htokens⟩ | ⟨front, body, hchomped, hfront⟩ := scanLine_front h
  · exact .inl ⟨hin, by simp [scanLines, htokens]⟩
  · obtain ⟨more, hmore⟩ := line.chomped_prefix
    have heq : line = front ++ '/' :: '*' :: (body ++ more) := by
      rw [← hmore, hchomped, List.append_assoc]
      rfl
    have hlines : (front ++ [' ']).lines = [front ++ [' ']] := by
      refine Text.lines_append_blank fun hmem => hline ?_
      rw [heq]
      exact List.mem_append_left _ hmem
    refine .inr ⟨front, body ++ more, heq, ?_, ?_⟩
    · rw [hlines, leavesOpen, leavesOpen, ← scanLine_open fun col => ⟨file, number, col⟩, hfront]
    · simp [hlines, scanLines, hfront]

/-- A text leaves a comment open that is open all along, or that it opens behind its last token. -/
theorem scanLines_front (file : Text) (number : Nat) {inComment : Bool} {text : Text}
    (h : leavesOpen inComment text.lines) :
    (inComment ∧ scanLines file number inComment text.lines = []) ∨ ∃ front body, text = front ++ '/' :: '*' :: body ∧
      leavesOpen inComment (front ++ [' ']).lines = false ∧
      scanLines file number inComment (front ++ [' ']).lines = scanLines file number inComment text.lines := by
  by_cases hbreak : '\n' ∈ text
  · obtain ⟨line, rest, rfl, hline⟩ := List.eq_append_cons_of_mem hbreak
    have hlt : rest.length < (line ++ '\n' :: rest).length := by simp; omega
    have hlines : ∀ t : Text, Text.lines (line ++ '\n' :: t) = [Text.chomped line] ++ Text.lines t := by
      intro t
      rw [Text.lines_append, Text.pieces_of_no_newline hline]
      rfl
    rw [hlines, leavesOpen_append] at h
    rw [hlines, scanLines_append, List.length_singleton]
    obtain ⟨hin, htokens⟩ | ⟨front, body, rfl, hclosed, hfront⟩ := scanLines_front file (number + 1) h
    · rw [htokens, List.append_nil]
      obtain hin | ⟨front, body, heq, hclosed, hfront⟩ := scanLine_front_chomped file number hline hin
      · exact .inl hin
      · exact .inr ⟨front, body ++ '\n' :: rest, by simp [heq], hclosed, hfront⟩
    · refine .inr ⟨line ++ '\n' :: front, body, by simp, ?_, ?_⟩
      · rw [List.append_assoc, List.cons_append, hlines, leavesOpen_append, hclosed]
      · rw [List.append_assoc, List.cons_append, hlines, scanLines_append, List.length_singleton, hfront]
  · by_cases hne : text = []
    · have hlines : Text.lines text = [] := by rw [hne]; simp [Text.lines, Text.pieces_of_no_newline]
      rw [hlines] at h ⊢
      exact .inl ⟨h, rfl⟩
    · rw [Text.lines_of_no_newline hbreak hne] at h ⊢
      exact scanLine_front_chomped file number hbreak h
termination_by text.length

end Scan

namespace Source

/-- A source that leaves a comment open has the tokens of the text in front of that comment. -/
theorem tokens_front {s : Source} (h : s.LeavesCommentOpen) : ∃ front body, s.text = front ++ '/' :: '*' :: body ∧
    ¬ LeavesCommentOpen ⟨front ++ [' '], s.name⟩ ∧ tokens ⟨front ++ [' '], s.name⟩ = s.tokens := by
  obtain ⟨⟨⟩, -⟩ | ⟨front, body, htext, hclosed, htokens⟩ := Scan.scanLines_front s.name 1 h
  exact ⟨front, body, htext, Bool.eq_false_iff.1 hclosed, htokens⟩

end Source
end FrontEnd
