import FrontEnd.Proofs.Syntax.OpenComments

/-!
# Tokens scanned alone

* `Scan.digitsLength_take`, `Scan.fractionLength_take`, `Scan.exponentLength_take`, `Scan.quotedLength_take`,
  `Scan.symbol?_take` : cutting a text behind what was found at its front changes nothing in what is found there;
* `Scan.lexeme_take` : so the longest match is found again in its own text;
* `Token.Alone` : a token is all that its own text is scanned to;
* `Text.lines_terminated` : the lines of texts each of which is ended by a carriage return and a line feed;
* `Source.tokens_rescanned` : the tokens of a source, each written on a line of its own.
-/

namespace FrontEnd
namespace Scan

/-! ## Longest matches, cut behind their ends -/

section
variable {c : Char} {cs : Text} {n : Nat}

theorem symbol?_take {found : TokenKind × Nat} (h : symbol? c cs = some found) :
    symbol? c (cs.take found.2) = some found := by
  unfold symbol? at h
  split at h <;> cases h <;> rfl

/-- What starts no symbol in front of a text starts none in front of less of it. -/
theorem symbol?_take_eq_none (h : symbol? c cs = none) (n : Nat) : symbol? c (cs.take n) = none := by
  cases cs with
  | nil => rwa [List.take_nil]
  | cons x cs =>
    cases n with
    | zero =>
      rw [List.take_zero]
      unfold symbol? at h ⊢
      split at h <;> cases h
      split <;> simp_all
    | succ n => rwa [List.take_succ_cons, symbol?_cons x _ cs]

theorem digitsLength_take (n : Nat) (cs : Text) : digitsLength (cs.take n) = min n (digitsLength cs) := by
  simp only [digitsLength]
  induction cs generalizing n with
  | nil => simp
  | cons d cs ih =>
    cases n with
    | zero => simp
    | succ n =>
      cases hd : d.isDigit with
      | true => simp [hd, ih, Nat.succ_min_succ]
      | false => simp [hd]

theorem fractionLength_take (h : fractionLength cs ≤ n) : fractionLength (cs.take n) = fractionLength cs := by
  cases n with
  | zero => rw [List.take_zero, Nat.le_zero.1 h, fractionLength.eq_def]
  | succ n =>
    cases cs with
    | nil => rfl
    | cons d cs =>
      by_cases hd : d = '.'
      · subst hd
        rw [List.take_succ_cons]
        simp only [fractionLength, digitsLength_take] at h ⊢
        split_ifs at h ⊢ <;> omega
      · simp [fractionLength, hd]

theorem signLength_take_succ (n : Nat) (cs : Text) : signLength (cs.take (n + 1)) = signLength cs := by
  cases cs with
  | nil => rfl
  | cons d cs =>
    rw [List.take_succ_cons]
    unfold signLength
    split <;> simp_all

/-- An exponent is at least a letter and a digit, so that nothing is found in front of a shorter text. -/
theorem exponentLength_take (h : exponentLength cs ≤ n) : exponentLength (cs.take n) = exponentLength cs := by
  match cs, n with
  | [], n => rw [List.take_nil]
  | d :: cs, 0 => rw [List.take_zero, Nat.le_zero.1 h, exponentLength]
  | d :: cs, 1 =>
    simp only [exponentLength] at h
    simp only [List.take_succ_cons, List.take_zero, exponentLength, List.drop_nil]
    rw [if_neg fun hd => hd.2 rfl]
    split_ifs at h ⊢ <;> omega
  | d :: cs, n + 2 =>
    simp only [exponentLength] at h
    rw [List.take_succ_cons]
    simp only [exponentLength, signLength_take_succ, List.drop_take, digitsLength_take]
    by_cases hd : d = 'e' ∨ d = 'E'
    · simp only [hd, true_and] at h ⊢
      split_ifs at h ⊢ <;> omega
    · rw [if_neg fun hand => hd hand.1, if_neg fun hand => hd hand.1]

theorem number_take (cs : Text) : number (cs.take (number cs).2) = number cs := by
  let fraction := fractionLength (cs.drop (digitsLength cs))
  let exponent := exponentLength (cs.drop (digitsLength cs + fraction))
  have hlength : (number cs).2 = digitsLength cs + fraction + exponent := rfl
  have hdigits : digitsLength (cs.take (number cs).2) = digitsLength cs := by
    rw [digitsLength_take, hlength]
    omega
  have hfraction : fractionLength ((cs.take (number cs).2).drop (digitsLength cs)) = fraction := by
    rw [List.drop_take, fractionLength_take]
    omega
  have hexponent : exponentLength ((cs.take (number cs).2).drop (digitsLength cs + fraction)) = exponent := by
    rw [List.drop_take, exponentLength_take]
    omega
  rw [number]
  simp only [hdigits, hfraction, hexponent]
  rfl

theorem quotedLength_take (quote : Char) (cs : Text) :
    quotedLength quote (cs.take (quotedLength quote cs)) = quotedLength quote cs := by
  fun_induction quotedLength quote cs with
  | case1 => rfl
  | case2 => rfl
  | case3 x cs ih => rw [Nat.add_comm, List.take_succ_cons, List.take_succ_cons, quotedLength, ih, Nat.add_comm]
  | case4 cs hnil hcons =>
    rw [List.take_succ_cons, quotedLength_cons (ne_backslash hnil hcons), if_pos rfl]
  | case5 x cs hnil hcons hne ih =>
    rw [Nat.add_comm, List.take_succ_cons, quotedLength_cons (ne_backslash hnil hcons), if_neg hne, ih, Nat.add_comm]

theorem takeWhile_take (p : Char → Bool) (cs : Text) :
    (cs.take (cs.takeWhile p).length).takeWhile p = cs.takeWhile p := by
  rw [← List.prefix_iff_eq_take.1 (List.takeWhile_prefix p), List.takeWhile_takeWhile]
  simp

/-- The kind and the extent of a token can be seen from its text. -/
theorem lexeme_take (c : Char) (cs : Text) : lexeme c (cs.take (lexeme c cs).2) = lexeme c cs := by
  cases hsymbol : symbol? c cs with
  | some found => rw [lexeme, lexeme, hsymbol, symbol?_take hsymbol]
  | none =>
    rw [lexeme, symbol?_take_eq_none hsymbol, lexeme, hsymbol]
    dsimp only
    split_ifs
    · rw [quotedLength_take]
    · rw [quotedLength_take]
    · exact number_take cs
    · rw [takeWhile_take]
    · rfl

end

end Scan

/-! ## Lines of one token -/

/-- The text of `t` is scanned to `t` and nothing else. -/
def Token.Alone (t : Token) : Prop :=
  ∀ place col, Scan.scanLine place false col t.text = ([⟨t.kind, t.text, place col⟩], false)

namespace Scan

theorem alone_of_mem_scanLine {place : Nat → Location} {inComment : Bool} {col : Nat} {cs : Text} :
    ∀ t ∈ (scanLine place inComment col cs).1, t.Alone := by
  fun_induction scanLine place inComment col cs with
  | case1 | case4 => simp
  | case2 | case3 | case5 | case6 => assumption
  | case7 col c rest hline hblock hblank kind more hlexeme tokens stillOpen hscan ih =>
    intro t ht
    rw [hscan] at ih
    rcases List.mem_cons.1 ht with rfl | ht
    · intro place col
      have htake := lexeme_take c rest
      rw [hlexeme] at htake
      -- a comment in front of the token's text would be one in front of the rest of the line
      have hstart : ∀ d tail, rest.take more = d :: tail → ∃ tail', rest = d :: tail' := fun d tail heq =>
        ⟨tail ++ rest.drop more, by rw [← List.cons_append, ← heq, List.take_append_drop]⟩
      rw [scanLine, if_neg hblank, htake]
      · dsimp only
        rw [List.drop_take, Nat.sub_self, List.take_zero, scanLine_nil, List.take_take, Nat.min_self]
      · intro tail hc heq
        obtain ⟨tail', heq'⟩ := hstart _ _ heq
        exact hline tail' hc heq'
      · intro tail hc heq
        obtain ⟨tail', heq'⟩ := hstart _ _ heq
        exact hblock tail' hc heq'
    · exact ih t ht

theorem alone_of_mem_scanLines {file : Text} {number : Nat} {inComment : Bool} {lines : List Text} :
    ∀ t ∈ scanLines file number inComment lines, t.Alone := by
  induction lines generalizing number inComment with
  | nil => simp [scanLines]
  | cons line lines ih =>
    intro t ht
    rcases List.mem_append.1 ht with ht | ht
    · exact alone_of_mem_scanLine t ht
    · exact ih t ht

theorem scanLines_alone (file : Text) (number : Nat) {ts : List Token} (h : ∀ t ∈ ts, t.Alone) :
    scanLines file number false (ts.map Token.text) =
      ts.mapIdx fun i t => ⟨t.kind, t.text, ⟨file, number + i, 1⟩⟩ := by
  induction ts generalizing number with
  | nil => rfl
  | cons t ts ih =>
    rw [List.map_cons, scanLines, h t List.mem_cons_self, List.mapIdx_cons]
    dsimp only
    rw [ih (number + 1) fun u hu => h u (List.mem_cons_of_mem t hu), List.singleton_append]
    simp only [Int.natCast_add, Int.natCast_zero, Int.add_zero, Int.natCast_one, Int.add_assoc, Int.add_comm 1]

end Scan

/-! ## Sources of such lines -/

namespace Text

/-- `line` with a carriage return and a line feed behind it. -/
def terminated (line : Text) : Text := line ++ ['\r', '\n']

theorem lines_terminated {all : List Text} (h : ∀ line ∈ all, '\n' ∉ line) :
    lines (all.flatMap terminated) = all := by
  induction all with
  | nil => simp [lines, pieces_of_no_newline]
  | cons line all ih =>
    have hline : '\n' ∉ line ++ ['\r'] := by simpa using h line List.mem_cons_self
    have htext : (line :: all).flatMap terminated = (line ++ ['\r']) ++ '\n' :: all.flatMap terminated := by
      simp [terminated]
    rw [htext, lines_append, pieces_of_no_newline hline, ih fun line hmem => h line (List.mem_cons_of_mem _ hmem)]
    simp [chomped]

end Text

/-- A token does not depend on what stands around it: written each on a line of its own, which a carriage return and a
line feed end, the tokens of a source are scanned again, in column 1 of their lines. -/
theorem Source.tokens_rescanned (s : Source) (name : Text) :
    tokens ⟨s.tokens.flatMap fun t => Text.terminated t.text, name⟩ =
      s.tokens.mapIdx fun i t => ⟨t.kind, t.text, ⟨name, i + 1, 1⟩⟩ := by
  have hnewline : ∀ line ∈ s.tokens.map Token.text, '\n' ∉ line := by
    intro line hline
    obtain ⟨t, ht, rfl⟩ := List.mem_map.1 hline
    exact (s.covers.occurs t ht).2.1
  have hlines := Text.lines_terminated hnewline
  rw [List.flatMap_map] at hlines
  have halone : ∀ t ∈ s.tokens, t.Alone := Scan.alone_of_mem_scanLines
  rw [tokens, hlines, Scan.scanLines_alone name 1 halone]
  simp only [Int.natCast_one, Int.add_comm]

end FrontEnd
