import FrontEnd.Text

/-!
# Outlines

* `Outline` : a heading with the outlines that stand below it;
* `Outline.lines` : one line for each heading, two blanks further in than the heading it stands below.
-/

namespace FrontEnd

/-- A heading and what stands below it. -/
inductive Outline where
  | item (heading : Text) (below : List Outline)

namespace Outline

/-- The blanks in front of a heading of this depth. -/
def indentation (depth : Nat) : Text := List.replicate (2 * depth) ' '

mutual

/-- The lines of an outline whose heading has this depth. -/
def lines (depth : Nat) : Outline → List Text
  | item heading below => (indentation depth ++ heading) :: linesBelow (depth + 1) below

/-- The lines of several outlines whose headings have this depth. -/
def linesBelow (depth : Nat) : List Outline → List Text
  | [] => []
  | o :: os => o.lines depth ++ linesBelow depth os

end

/-- An outline as text. -/
def text (o : Outline) : Text := Text.ofLines (o.lines 0)

end Outline
end FrontEnd
