import FrontEnd.Text

/-!
# Splitting a text into lines

* `Text.pieces` : what stands between line feeds, an empty last piece included;
* `Text.lines` : the lines a reader is given: an empty rest after the last line feed is none, and one carriage
  return at the end of a line belongs to the line break.

`pieces_of_no_newline` and `pieces_append_newline` determine `pieces`; `pieces_ofLines` : the pieces of lines that are
written one below the other are these lines.
-/

namespace FrontEnd.Text

theorem length_lt_of_dropWhile_eq_cons {p : Char → Bool} {t rest : Text} {c : Char}
    (h : t.dropWhile p = c :: rest) : rest.length < t.length := by
  have := (List.dropWhile_sublist p (l := t)).length_le
  simp only [h, List.length_cons] at this
  omega

/-- The pieces of `t` between line feeds, at least one. -/
def pieces (t : Text) : List Text :=
  match h : t.dropWhile (· != '\n') with
  | [] => [t]
  | _ :: rest =>
    have := length_lt_of_dropWhile_eq_cons h
    t.takeWhile (· != '\n') :: pieces rest
termination_by t.length

/-- `line` without one carriage return at its end. -/
def chomped (line : Text) : Text :=
  if line.getLast? = some '\r' then line.dropLast else line

/-- The lines of `t` as a line reader gives them. -/
def lines (t : Text) : List Text :=
  let all := pieces t
  (if all.getLast? = some [] then all.dropLast else all).map chomped

theorem pieces_of_no_newline {t : Text} (h : '\n' ∉ t) : pieces t = [t] := by
  have hd : t.dropWhile (· != '\n') = [] := by
    have : (t ++ []).dropWhile (· != '\n') = [] := List.dropWhile_append_of_pos (by grind)
    simpa using this
  unfold pieces
  split
  · rfl
  · simp_all

theorem pieces_append_newline {line : Text} (h : '\n' ∉ line) (rest : Text) :
    pieces (line ++ '\n' :: rest) = line :: pieces rest := by
  have hp : ∀ c ∈ line, (c != '\n') = true := by
    intro c hc
    simp only [bne_iff_ne, ne_eq]
    rintro rfl
    exact h hc
  have hd : (line ++ '\n' :: rest).dropWhile (· != '\n') = '\n' :: rest := by
    rw [List.dropWhile_append_of_pos hp]
    simp
  have ht : (line ++ '\n' :: rest).takeWhile (· != '\n') = line := by
    rw [List.takeWhile_append_of_pos hp]
    simp
  rw [pieces]
  split
  · simp_all
  · next heq =>
    rw [hd] at heq
    simp only [List.cons.injEq] at heq
    obtain ⟨rfl, rfl⟩ := heq
    simp only [ht]

theorem pieces_ofLines {lines : List Text} (h : ∀ line ∈ lines, '\n' ∉ line) :
    pieces (ofLines lines) = lines ++ [[]] := by
  induction lines with
  | nil => exact pieces_of_no_newline List.not_mem_nil
  | cons line lines ih =>
    obtain ⟨hfirst, hrest⟩ := List.forall_mem_cons.1 h
    rw [ofLines_cons, pieces_append_newline hfirst, ih hrest, List.cons_append]

end FrontEnd.Text
