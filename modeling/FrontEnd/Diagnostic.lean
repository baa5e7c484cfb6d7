import FrontEnd.Fault
import FrontEnd.Text.Lines

/-!
# Diagnostics

* `ColorMode` : when diagnostics are coloured, `ColorMode.resolve` : whether they are;
* `Diagnostic` : a message with the place it speaks of;
* `Diagnostic.render` : its text: the place, the label `error:`, the message, the lines around the place and a caret
  under it.
-/

namespace FrontEnd

/-- When diagnostics are coloured. -/
inductive ColorMode where
  | auto | always | never
deriving DecidableEq, Inhabited

namespace ColorMode

/-- Whether the value of the colour variable of the process asks for colours. -/
def wanted (value : Option Text) : Bool :=
  match value with
  | none => false
  | some v => v.lowered ∈ (["1", "true", "yes"] : List Text)

/-- Whether diagnostics are coloured. Left to itself, the answer is yes on a terminal, or if the colour variable asks
for it. -/
def resolve (mode : ColorMode) (onTerminal : Bool) (value : Option Text) : Bool :=
  match mode with
  | always => true
  | never => false
  | auto => onTerminal || wanted value

end ColorMode

/-- A message about a place in a source. -/
structure Diagnostic where
  message : Text
  loc : Location
deriving DecidableEq, Inhabited

namespace Diagnostic

/-- The diagnostic of a fault of the program. -/
def ofFault? (f : Fault) : Option Diagnostic := f.loc?.map fun loc => ⟨f.message, loc⟩

/-- `t` in bold face. -/
def bold (t : Text) : Text := "\x1b[1m" ++ t ++ "\x1b[0m"

/-- `t` in red. -/
def red (t : Text) : Text := "\x1b[31m" ++ t ++ "\x1b[0m"

/-- The place in front of a diagnostic; none when its file has no name. -/
def header (d : Diagnostic) (color : Bool) : Text :=
  if d.loc.file.isEmpty then []
  else
    let place := d.loc.text ++ ": "
    if color then bold place else place

/-- The label of a diagnostic. -/
def label (color : Bool) : Text := if color then red "error: " else "error: "

/-- The source line of a diagnostic with at most `context` lines in front of it, and a line with a caret under the
column; nothing when the place is not in the source. -/
def excerpt (loc : Location) (context : Int) (source : Text) : List Text :=
  let lines := source.pieces
  let index := (loc.line - 1).toNat
  if loc.line ≤ 0 ∨ loc.col ≤ 0 ∨ lines.length ≤ index then []
  else
    let shown := (lines.take (index + 1)).drop (index - context.toNat)
    (shown ++ [List.replicate (loc.col - 1).toNat ' ' ++ ['^']]).map ([' ', ' '] ++ ·)

/-- The text of a diagnostic. -/
def render (d : Diagnostic) (color : Bool) (context : Int) (source : Text) : Text :=
  d.header color ++ label color ++ Text.ofLines (d.message :: excerpt d.loc context source)

end Diagnostic
end FrontEnd
