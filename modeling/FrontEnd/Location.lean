import FrontEnd.Text

/-!
# Source locations

A `Location` names a file, a line and a column; lines and columns of a scanned text are counted from 1.
`Location.text` is how a location is written: `file:line:col`, or `line:col` where the file has no name.
-/

namespace FrontEnd

/-- A place in a named text. -/
structure Location where
  file : Text := []
  line : Int := 1
  col : Int := 1
deriving DecidableEq, Inhabited

/-- `file:line:col`, or `line:col` when the file has no name. -/
def Location.text (loc : Location) : Text :=
  (if loc.file.isEmpty then [] else loc.file ++ [':']) ++ Text.ofInt loc.line ++ ':' :: Text.ofInt loc.col

end FrontEnd
