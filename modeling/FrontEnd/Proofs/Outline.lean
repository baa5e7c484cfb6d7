import FrontEnd.Text.Outline

/-!
# Reading outlines back

* `Text.takeWhile_front`, `Text.front_inj` : characters of a sort in front of one of another sort;
  `Text.before_inj`, `Text.behind_inj` : a text is cut in one way only at the first, or the last, of a character;
* `Text.ofLines_inj` : texts of lines are those of the same lines;
* `Outline.Plain` : headings that show where they begin and end, `Outline.Legible` : outlines of such headings;
* `Outline.headings` : the headings of an outline; `Outline.legible_of_headings` : they make it legible;
  `Outline.length_lines` : each has a line;
* `Outline.Shallow` : lines that go on above a depth;
* `Outline.linesBelow_append_inj` : the lines of outlines say which outlines they are and where they end, whatever
  shallower lines follow;
* `Outline.text_inj` : outlines with the same text are the same.
-/

namespace FrontEnd
namespace Text

theorem takeWhile_front {p : Char → Bool} {s t : Text} (hs : ∀ c ∈ s, p c) (ht : ∀ c ∈ t.head?, p c = false) :
    (s ++ t).takeWhile p = s := by
  rw [List.takeWhile_append_of_pos hs]
  cases t with
  | nil => simp
  | cons c t => rw [List.takeWhile_cons_of_neg (by simp [ht c rfl]), List.append_nil]

theorem front_inj {p : Char → Bool} {s s' t t' : Text} (hs : ∀ c ∈ s, p c) (hs' : ∀ c ∈ s', p c)
    (ht : ∀ c ∈ t.head?, p c = false) (ht' : ∀ c ∈ t'.head?, p c = false) (h : s ++ t = s' ++ t') :
    s = s' ∧ t = t' := by
  obtain rfl : s = s' := by rw [← takeWhile_front hs ht, h, takeWhile_front hs' ht']
  exact ⟨rfl, List.append_cancel_left h⟩

theorem before_inj {a : Char} {s s' t t' : Text} (hs : a ∉ s) (hs' : a ∉ s') (h : s ++ a :: t = s' ++ a :: t') :
    s = s' ∧ t = t' := by
  have hne : ∀ {s : Text}, a ∉ s → ∀ c ∈ s, (c != a) = true := fun hs c hc =>
    bne_iff_ne.2 fun heq => hs (heq ▸ hc)
  obtain ⟨rfl, htail⟩ := front_inj (hne hs) (hne hs') (by simp) (by simp) h
  exact ⟨rfl, (List.cons.inj htail).2⟩

theorem behind_inj {a : Char} {s s' t t' : Text} (ht : a ∉ t) (ht' : a ∉ t') (h : s ++ a :: t = s' ++ a :: t') :
    s = s' ∧ t = t' := by
  have hreverse : t.reverse ++ a :: s.reverse = t'.reverse ++ a :: s'.reverse := by
    simpa using congrArg List.reverse h
  obtain ⟨hbehind, hbefore⟩ := before_inj (by simpa using ht) (by simpa using ht') hreverse
  exact ⟨List.reverse_inj.1 hbefore, List.reverse_inj.1 hbehind⟩

theorem ofLines_inj {ls ms : List Text} (hl : ∀ l ∈ ls, '\n' ∉ l) (hm : ∀ m ∈ ms, '\n' ∉ m)
    (h : ofLines ls = ofLines ms) : ls = ms := by
  induction ls generalizing ms with
  | nil =>
    cases ms with
    | nil => rfl
    | cons m ms => simp at h
  | cons l ls ih =>
    cases ms with
    | nil => simp at h
    | cons m ms =>
      rw [ofLines_cons, ofLines_cons] at h
      obtain ⟨rfl, hrest⟩ := before_inj (hl l List.mem_cons_self) (hm m List.mem_cons_self) h
      rw [ih (fun l h => hl l (.tail _ h)) (fun m h => hm m (.tail _ h)) hrest]

end Text

namespace Outline
variable {d : Nat} {heading heading' : Text} {below : List Outline}

/-- The heading holds no line feed and does not start with a blank. -/
structure Plain (heading : Text) : Prop where
  oneLine : '\n' ∉ heading
  start : heading.head? ≠ some ' '

/-- All headings are plain. -/
inductive Legible : Outline → Prop
  | item {heading : Text} {below : List Outline} (h : Plain heading) (hb : ∀ o ∈ below, Legible o) :
    Legible (item heading below)

/-! ### Headings -/

mutual

/-- The headings of an outline, its own first. -/
def headings : Outline → List Text
  | item heading below => heading :: headingsBelow below

/-- The headings of several outlines. -/
def headingsBelow : List Outline → List Text
  | [] => []
  | o :: os => o.headings ++ headingsBelow os

end

@[simp] theorem headingsBelow_append (os os' : List Outline) :
    headingsBelow (os ++ os') = headingsBelow os ++ headingsBelow os' := by
  induction os with
  | nil => rfl
  | cons o os ih => rw [List.cons_append, headingsBelow, ih, headingsBelow, List.append_assoc]

mutual

theorem legible_of_headings : (o : Outline) → (∀ heading ∈ o.headings, Plain heading) → o.Legible
  | item heading below, h => by
    rw [headings] at h
    obtain ⟨hhead, hbelow⟩ := List.forall_mem_cons.1 h
    exact .item hhead (legible_of_headingsBelow below hbelow)

theorem legible_of_headingsBelow : (os : List Outline) → (∀ heading ∈ headingsBelow os, Plain heading) →
    ∀ o ∈ os, o.Legible
  | [], _ => List.forall_mem_nil _
  | o :: os, h => by
    rw [headingsBelow] at h
    obtain ⟨hfirst, hrest⟩ := List.forall_mem_append.1 h
    exact List.forall_mem_cons.2 ⟨legible_of_headings o hfirst, legible_of_headingsBelow os hrest⟩

end

mutual

theorem length_lines : (o : Outline) → (d : Nat) → (o.lines d).length = o.headings.length
  | item heading below, d => by
    rw [lines, headings, List.length_cons, List.length_cons, length_linesBelow below]

theorem length_linesBelow : (os : List Outline) → (d : Nat) → (linesBelow d os).length = (headingsBelow os).length
  | [], _ => rfl
  | o :: os, d => by
    rw [linesBelow, headingsBelow, List.length_append, List.length_append, length_lines o, length_linesBelow os]

end

/-! ### Lines -/

/-- The number of blanks in front of a line. -/
def blanks (line : Text) : Nat := (line.takeWhile (· = ' ')).length

theorem blanks_indented (h : Plain heading) (d : Nat) : blanks (indentation d ++ heading) = 2 * d := by
  rw [blanks, indentation, Text.takeWhile_front (by simp), List.length_replicate]
  intro c hc
  simpa using fun heq : c = ' ' => h.start (heq ▸ hc)

/-- The first of the lines, if there is one, is less deep than `d`. -/
def Shallow (d : Nat) (lines : List Text) : Prop := ∀ line ∈ lines.head?, blanks line < 2 * d

theorem shallow_linesBelow {os : List Outline} {rest : List Text} (ho : ∀ o ∈ os, Legible o)
    (hr : Shallow d rest) : Shallow (d + 1) (linesBelow d os ++ rest) := by
  cases os with
  | nil => exact fun line hline => Nat.lt_trans (hr line hline) (by omega)
  | cons o os =>
    cases ho o List.mem_cons_self with
    | item h _ =>
      rw [linesBelow, lines]
      rintro line ⟨⟩
      rw [blanks_indented h]
      omega

/-- No outline of this depth begins where shallower lines do. -/
theorem ne_shallow {o : Outline} {ls rest : List Text} (ho : Legible o) (hr : Shallow d rest) :
    rest ≠ o.lines d ++ ls := by
  cases ho with
  | item h _ =>
    rintro rfl
    rw [lines] at hr
    have := hr _ rfl
    rw [blanks_indented h] at this
    omega

mutual

theorem lines_append_inj : (o : Outline) → {o' : Outline} → {d : Nat} → {rest rest' : List Text} → o.Legible →
    o'.Legible → Shallow (d + 1) rest → Shallow (d + 1) rest' → o.lines d ++ rest = o'.lines d ++ rest' →
    o = o' ∧ rest = rest'
  | .item heading below, .item heading' below', d, rest, rest', .item _ hb, .item _ hb', hr, hr', h => by
    rw [lines, lines, List.cons_append, List.cons_append] at h
    obtain ⟨hline, hlines⟩ := List.cons.inj h
    obtain rfl := List.append_cancel_left hline
    obtain ⟨rfl, rfl⟩ := linesBelow_append_inj below hb hb' hr hr' hlines
    exact ⟨rfl, rfl⟩

theorem linesBelow_append_inj : (os : List Outline) → {os' : List Outline} → {d : Nat} → {rest rest' : List Text} →
    (∀ o ∈ os, o.Legible) → (∀ o ∈ os', o.Legible) → Shallow d rest → Shallow d rest' →
    linesBelow d os ++ rest = linesBelow d os' ++ rest' → os = os' ∧ rest = rest'
  | [], [], _, _, _, _, _, _, _, h => ⟨rfl, h⟩
  | [], o' :: os', d, rest, rest', _, ho', hr, _, h => by
    rw [linesBelow, linesBelow, List.append_assoc] at h
    exact absurd h (ne_shallow (ho' o' List.mem_cons_self) hr)
  | o :: os, [], d, rest, rest', ho, _, _, hr', h => by
    rw [linesBelow, linesBelow, List.append_assoc] at h
    exact absurd h.symm (ne_shallow (ho o List.mem_cons_self) hr')
  | o :: os, o' :: os', d, rest, rest', ho, ho', hr, hr', h => by
    have hos : ∀ o ∈ os, o.Legible := fun o h => ho o (.tail _ h)
    have hos' : ∀ o ∈ os', o.Legible := fun o h => ho' o (.tail _ h)
    rw [linesBelow, linesBelow, List.append_assoc, List.append_assoc] at h
    obtain ⟨rfl, hlines⟩ := lines_append_inj o (ho o List.mem_cons_self) (ho' o' List.mem_cons_self)
      (shallow_linesBelow hos hr) (shallow_linesBelow hos' hr') h
    obtain ⟨rfl, rfl⟩ := linesBelow_append_inj os hos hos' hr hr' hlines
    exact ⟨rfl, rfl⟩

end

mutual

theorem lines_oneLine : (o : Outline) → {d : Nat} → o.Legible → ∀ line ∈ o.lines d, '\n' ∉ line
  | .item heading below, d, .item h hb, line, hline => by
    rw [lines] at hline
    rcases List.mem_cons.1 hline with rfl | hline
    · simp [indentation, h.oneLine]
    · exact linesBelow_oneLine below hb line hline

theorem linesBelow_oneLine : (os : List Outline) → {d : Nat} → (∀ o ∈ os, o.Legible) →
    ∀ line ∈ linesBelow d os, '\n' ∉ line
  | [], _, _, _, hline => by cases hline
  | o :: os, d, ho, line, hline => by
    rw [linesBelow] at hline
    rcases List.mem_append.1 hline with hline | hline
    · exact lines_oneLine o (ho o List.mem_cons_self) line hline
    · exact linesBelow_oneLine os (fun o h => ho o (.tail _ h)) line hline

end

theorem text_inj {o o' : Outline} (ho : o.Legible) (ho' : o'.Legible) (h : o.text = o'.text) : o = o' := by
  have hlines := Text.ofLines_inj (lines_oneLine o ho) (lines_oneLine o' ho') h
  have hnil : ∀ d, Shallow d [] := fun _ _ h => by cases h
  exact (lines_append_inj o ho ho' (hnil 1) (hnil 1) (by rw [hlines])).1

end Outline
end FrontEnd
