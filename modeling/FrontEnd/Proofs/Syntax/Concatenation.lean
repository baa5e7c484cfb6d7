import FrontEnd.Proofs.Syntax.Scanning
import FrontEnd.Token.Reader

/-!
# Scanning texts put together

* `Token.moved` : a token at another place; `Scan.scanLine_moved` : scanning looks at places only to pass them on;
* `Scan.leavesOpen` : whether a block comment is open behind some lines, which is all that they leave to the next line;
* `Scan.scanLines_append` : lines are scanned one after the other in that state;
* `Text.pieces_append`, `Text.lines_append` : the lines of two texts with a line break between them;
* `Source.tokens_append` : the tokens of such a text;
* `TokenReader.tokens_compositional` : this, and the tokens of several sources.
-/

namespace FrontEnd

/-- The place `n` lines further down. -/
def Location.below (n : Nat) (loc : Location) : Location := { loc with line := loc.line + n }

/-- `t` at the place that `move` makes of its own. -/
def Token.moved (move : Location → Location) (t : Token) : Token := { t with loc := move t.loc }

/-! ## From line to line -/

namespace Scan

theorem scanLine_moved (move : Location → Location) (place : Nat → Location) (inComment : Bool) (col : Nat)
    (cs : Text) :
    scanLine (fun col => move (place col)) inComment col cs =
      ((scanLine place inComment col cs).1.map (Token.moved move), (scanLine place inComment col cs).2) := by
  fun_induction scanLine place inComment col cs with
  | case1 => simp [scanLine]
  | case2 col rest ih => rw [scanLine, ih]
  | case3 col c rest hclose ih =>
    rw [scanLine, ih]
    exact hclose
  | case4 col rest => simp [scanLine]
  | case5 col rest ih => rw [scanLine, ih]
  | case6 col c rest hline hblock hblank ih =>
    rw [scanLine, if_pos hblank, ih]
    · exact hline
    · exact hblock
  | case7 col c rest hline hblock hblank kind more hlexeme tokens stillOpen hscan ih =>
    rw [scanLine, if_neg hblank, hlexeme]
    · rw [hscan] at ih
      simp only [ih]
      rfl
    · exact hline
    · exact hblock

/-- Whether a block comment is open behind `lines`; `inComment` says whether one is open in front of them. -/
def leavesOpen (inComment : Bool) : List Text → Bool
  | [] => inComment
  | line :: lines => leavesOpen (scanLine (fun _ => {}) inComment 1 line).2 lines

theorem leavesOpen_append (inComment : Bool) (lines more : List Text) :
    leavesOpen inComment (lines ++ more) = leavesOpen (leavesOpen inComment lines) more := by
  induction lines generalizing inComment with
  | nil => rfl
  | cons line lines ih => exact ih _

/-- What a line leaves open does not depend on where it is. -/
theorem scanLine_open (place : Nat → Location) (inComment : Bool) (line : Text) :
    (scanLine place inComment 1 line).2 = (scanLine (fun _ => {}) inComment 1 line).2 :=
  (congrArg Prod.snd (scanLine_moved (fun _ => {}) place inComment 1 line)).symm

theorem scanLines_append (file : Text) (number : Nat) (inComment : Bool) (lines more : List Text) :
    scanLines file number inComment (lines ++ more) =
      scanLines file number inComment lines ++
        scanLines file (number + lines.length) (leavesOpen inComment lines) more := by
  induction lines generalizing number inComment with
  | nil => rfl
  | cons line lines ih =>
    rw [List.cons_append, scanLines, scanLines]
    dsimp only
    rw [ih, scanLine_open, List.append_assoc, List.length_cons, leavesOpen, Nat.add_assoc, Nat.add_comm 1]

theorem scanLines_below (n : Nat) (file : Text) (number : Nat) (inComment : Bool) (lines : List Text) :
    scanLines file (number + n) inComment lines =
      (scanLines file number inComment lines).map (Token.moved (Location.below n)) := by
  induction lines generalizing number inComment with
  | nil => rfl
  | cons line lines ih =>
    have hline := scanLine_moved (Location.below n) (fun col => ⟨file, number, col⟩) inComment 1 line
    rw [scanLines, scanLines, List.map_append, ← ih, Nat.add_right_comm]
    simp only [Location.below, ← Int.natCast_add] at hline
    rw [hline]

end Scan

/-! ## Lines -/

namespace Text

theorem pieces_ne_nil (t : Text) : t.pieces ≠ [] := by
  rw [pieces]
  split <;> exact List.cons_ne_nil _ _

theorem pieces_append (s t : Text) : pieces (s ++ '\n' :: t) = pieces s ++ pieces t := by
  by_cases h : '\n' ∈ s
  · obtain ⟨line, rest, heq, hline⟩ := List.eq_append_cons_of_mem h
    have hlt : rest.length < s.length := by simp [heq]; omega
    rw [heq, List.append_assoc, List.cons_append, pieces_append_newline hline, pieces_append_newline hline,
      pieces_append rest t, List.cons_append]
  · rw [pieces_append_newline h, pieces_of_no_newline h, List.singleton_append]
termination_by s.length

theorem length_pieces (t : Text) : t.pieces.length = 1 + t.count '\n' := by
  by_cases h : '\n' ∈ t
  · obtain ⟨line, rest, heq, hline⟩ := List.eq_append_cons_of_mem h
    have hlt : rest.length < t.length := by simp [heq]; omega
    rw [heq, pieces_append_newline hline, List.length_cons, length_pieces rest, List.count_append,
      List.count_eq_zero_of_not_mem hline, List.count_cons_self]
    omega
  · rw [pieces_of_no_newline h, List.count_eq_zero_of_not_mem h, List.length_singleton]
termination_by t.length

/-- The lines of a text, the one behind its last line break included, also where it is empty. -/
theorem lines_append (s t : Text) : lines (s ++ '\n' :: t) = s.pieces.map chomped ++ lines t := by
  have hlast : (s.pieces ++ t.pieces).getLast? = t.pieces.getLast? := by
    rw [List.getLast?_append, List.getLast?_eq_some_getLast t.pieces_ne_nil]
    rfl
  rw [lines, lines, pieces_append, hlast]
  split
  · rw [List.dropLast_append_of_ne_nil t.pieces_ne_nil, List.map_append]
  · rw [List.map_append]

/-- Behind the last line break stands an empty piece or another line. -/
theorem map_chomped_pieces (s : Text) : s.pieces.map chomped = s.lines ∨ s.pieces.map chomped = s.lines ++ [[]] := by
  rw [lines]
  split
  · next h =>
    right
    obtain ⟨front, heq⟩ := List.getLast?_eq_some_iff.1 h
    rw [heq, List.dropLast_concat, List.map_append]
    rfl
  · exact .inl rfl

end Text

/-! ## Texts -/

namespace Scan

theorem scanLine_nil (place : Nat → Location) (inComment : Bool) (col : Nat) :
    scanLine place inComment col [] = ([], inComment) := by
  rw [scanLine]

theorem scanLines_pieces (file : Text) (number : Nat) (inComment : Bool) (s : Text) :
    scanLines file number inComment (s.pieces.map Text.chomped) = scanLines file number inComment s.lines := by
  rcases s.map_chomped_pieces with h | h
  · rw [h]
  · rw [h, scanLines_append, scanLines, scanLine_nil]
    exact List.append_nil _

theorem leavesOpen_pieces (inComment : Bool) (s : Text) :
    leavesOpen inComment (s.pieces.map Text.chomped) = leavesOpen inComment s.lines := by
  rcases s.map_chomped_pieces with h | h
  · rw [h]
  · rw [h, leavesOpen_append, leavesOpen, scanLine_nil]
    rfl

end Scan

namespace Source

/-- A block comment is still open where `s` ends. -/
def LeavesCommentOpen (s : Source) : Prop := Scan.leavesOpen false s.text.lines

theorem tokens_append {name s t : Text} (h : ¬ LeavesCommentOpen ⟨s, name⟩) :
    tokens ⟨s ++ '\n' :: t, name⟩ =
      tokens ⟨s, name⟩ ++ (tokens ⟨t, name⟩).map (Token.moved (Location.below (1 + s.count '\n'))) := by
  have hclosed : Scan.leavesOpen false (s.pieces.map Text.chomped) = false := by
    rw [Scan.leavesOpen_pieces]
    exact Bool.eq_false_iff.2 h
  rw [tokens, Text.lines_append, Scan.scanLines_append, hclosed, Scan.scanLines_pieces, List.length_map,
    Text.length_pieces, Scan.scanLines_below]
  rfl

end Source

/-! ## Several sources -/

namespace TokenReader

theorem waiting_foldl_push (sources : List Source) (r : TokenReader) :
    sources.foldl push r = { r with waiting := sources.reverse ++ r.waiting } := by
  induction sources generalizing r with
  | nil => rfl
  | cons s sources ih => rw [List.foldl_cons, ih, List.reverse_cons, List.append_assoc]; rfl

/-- The tokens of a reader to which just `sources` have been added, with the one that marks the end. -/
def tokensOf (sources : List Source) : List Token := (sources.foldl push {}).whole.toList

theorem tokensOf_eq (sources : List Source) : tokensOf sources = (TokenStream.ofSources sources).toList := by
  rw [tokensOf, waiting_foldl_push]
  show (TokenStream.ofSources (sources.reverse ++ []).reverse).toList = _
  rw [List.append_nil, List.reverse_reverse]

theorem tokensOf_singleton (s : Source) : tokensOf [s] = s.tokens ++ [⟨.endOfInput, "<EOF>", s.endLocation⟩] := by
  rw [tokensOf_eq]
  simp [TokenStream.ofSources, TokenStream.toList, TokenStream.last]

/-- Where no comment is left open, the tokens of two texts with a line break between them are those of the first and,
further down, those of the second. The tokens of several sources are those that each of them has when it is read alone,
the last one added in front, and behind them stands the end of the one added first. -/
theorem tokens_compositional (name text text' : Text) :
    (¬ Source.LeavesCommentOpen ⟨text, name⟩ →
      Source.tokens ⟨text ++ '\n' :: text', name⟩ = Source.tokens ⟨text, name⟩ ++
        (Source.tokens ⟨text', name⟩).map (Token.moved (Location.below (1 + text.count '\n')))) ∧
    (∀ s : Source, (tokensOf [s]).dropLast = s.tokens) ∧
    ∀ (first : Source) (more : List Source), tokensOf (first :: more) =
      ((first :: more).reverse.flatMap fun s => (tokensOf [s]).dropLast) ++ (tokensOf [first]).getLast?.toList := by
  have halone : ∀ s : Source, (tokensOf [s]).dropLast = s.tokens := by
    intro s
    rw [tokensOf_singleton, List.dropLast_concat]
  refine ⟨Source.tokens_append, halone, fun first more => ?_⟩
  simp only [halone]
  rw [tokensOf_singleton, tokensOf_eq, List.getLast?_concat]
  rfl

/-- A comment that is closed, a literal that is not, and another line. -/
theorem tokens_compositional_openLiteral : ¬ Source.LeavesCommentOpen ⟨"/* x\n*/ 'a", "m"⟩ ∧
    Source.tokens ⟨"/* x\n*/ 'a\nb", "m"⟩ =
      Source.tokens ⟨"/* x\n*/ 'a", "m"⟩ ++ [⟨.identifier, "b", ⟨"m", 3, 1⟩⟩] := by
  have hclosed : ¬ Source.LeavesCommentOpen ⟨"/* x\n*/ 'a", "m"⟩ := by
    rw [Source.LeavesCommentOpen, Bool.not_eq_true]
    with_unfolding_all rfl
  refine ⟨hclosed, ((tokens_compositional "m" "/* x\n*/ 'a" "b").1 hclosed).trans ?_⟩
  have hline : Source.tokens ⟨"b", "m"⟩ = [⟨.identifier, "b", ⟨"m", 1, 1⟩⟩] := by with_unfolding_all rfl
  rw [hline]
  rfl

end TokenReader
end FrontEnd
