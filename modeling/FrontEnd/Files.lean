import FrontEnd.Text

/-!
# Files

`Files` gives the contents of files by path, and `Files.read` those of one file, or the reason why there are none. A
path ends at its first zero byte, the reason names it in full up to there.
-/

namespace FrontEnd

/-- The contents of the files that can be opened, by path. -/
abbrev Files := Text → Option Text

/-- A file that cannot be opened. -/
structure OpenFailure where
  path : Text
deriving DecidableEq, Inhabited

/-- The wording of a failure to open a file. -/
def OpenFailure.message (f : OpenFailure) : Text := Text.upToNul ("failed to open file: " ++ f.path)

/-- The contents of the file at `path`. -/
def Files.read (files : Files) (path : Text) : Except OpenFailure Text :=
  match files path.upToNul with
  | some contents => .ok contents
  | none => .error ⟨path⟩

end FrontEnd
