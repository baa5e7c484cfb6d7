import FrontEnd.Metrics

/-!
# Summaries of metrics

* `Metrics.millis` : microseconds as milliseconds with three places;
* `Metrics.summaryText` : a line for each figure;
* `Metrics.summaryJson` : the figures as a JSON object, with the names of stages in small letters. Parts without
  members are left out, the times aside.
-/

namespace FrontEnd.Metrics

/-- Microseconds as milliseconds with three places. -/
def millis (micros : Nat) : Text :=
  let places := Text.ofNat (micros % 1000)
  Text.ofNat (micros / 1000) ++ '.' :: List.replicate (3 - places.length) '0' ++ places

/-- A value of 64 bits in decimal. -/
def wordText (w : UInt64) : Text := Text.ofNat w.toNat

/-- The summary with a line for each figure. -/
def summaryText (m : Metrics) : Text :=
  let stageLines := m.finished.map fun (name, micros) => "  " ++ name ++ ": " ++ millis micros ++ " ms"
  let geometryLines := m.geometry.toList.map fun g =>
    "  AST: nodes=" ++ Text.ofNat g.nodes ++ ", max_depth=" ++ Text.ofNat g.maxDepth
  let figureLines := (m.counters.toList ++ m.gauges.toList).map fun (key, value) =>
    "  " ++ key ++ ": " ++ wordText value
  Text.ofLines (("== Metrics ==" : Text) :: stageLines ++ geometryLines ++ figureLines)

/-- `t` between double quotes, as it is. -/
def quotedName (t : Text) : Text := '"' :: t ++ ['"']

/-- A member of the summary: its name, and members of its own, each on a line. -/
def objectMember (name : Text) (members : List (Text × Text)) : Text :=
  let lines := members.map fun (key, value) => "    " ++ quotedName key ++ ": " ++ value
  "  " ++ quotedName name ++ ": " ++ '{' :: (if lines.isEmpty then [] else '\n' :: Text.joined ",\n" lines) ++
    "\n  " ++ ['}']

/-- A member of the summary for a table of figures, none when the table is empty. -/
def tableMember (name : Text) (table : Dictionary UInt64) : List Text :=
  if table.toList.isEmpty then []
  else [objectMember name (table.toList.map fun (key, value) => (key, wordText value))]

/-- The member of the summary for the size of the tree. -/
def geometryMember (g : Geometry) : Text :=
  "  " ++ quotedName "ast" ++ ": " ++ '{' :: " " ++ quotedName "nodes" ++ ": " ++ Text.ofNat g.nodes ++ ", " ++
    quotedName "max_depth" ++ ": " ++ Text.ofNat g.maxDepth ++ " " ++ ['}']

/-- The member of the summary for the hints, none when there are none. -/
def hintsMember (hints : List Text) : List Text :=
  if hints.isEmpty then []
  else ["  " ++ quotedName "hints" ++ ": [" ++ Text.joined ", " (hints.map quotedName) ++ "]"]

/-- The summary as a JSON object. -/
def summaryJson (m : Metrics) : Text :=
  let members :=
    objectMember "durations_ms" (m.finished.map fun (name, micros) => (name.lowered, millis micros)) ::
      m.geometry.toList.map geometryMember ++ tableMember "counters" m.counters ++ tableMember "gauges" m.gauges ++
      hintsMember m.hints
  '{' :: '\n' :: Text.joined ",\n" members ++ '\n' :: '}' :: ['\n']

end FrontEnd.Metrics
