import FrontEnd.CommandLine

/-!
# The program

Reads the arguments, the file that they name and the colour variable, measures the stages, and writes the answer.
-/

namespace FrontEnd.Main

/-- The bytes of a text. -/
def bytesOf (t : Text) : ByteArray := ⟨(t.map fun c => c.toNat.toUInt8).toArray⟩

/-- The text of some bytes. -/
def textOf (bytes : ByteArray) : Text := bytes.toList.map fun b => Char.ofNat b.toNat

/-- The text of a string of the system, which is in UTF-8. -/
def textOfString (s : String) : Text := textOf s.toUTF8

/-- A value and the microseconds that computing it took. -/
def measured {α : Type} (compute : Unit → α) : IO (α × Nat) := do
  let started ← IO.monoNanosNow
  let value ← IO.lazyPure compute
  let stopped ← IO.monoNanosNow
  return (value, (stopped - started) / 1000)

/-- The output for a source, with the times of the stages measured. -/
def compileMeasured (color : Bool) (options : Options) (source : Source) : IO (Except Fault Output) := do
  let (tokens, scan) ← measured fun _ => TokenStream.ofSources [source]
  let (program, parse) ← measured fun _ => readProgram tokens
  match program with
  | .error fault => return report { scan, parse } color options source (.unreadable tokens fault)
  | .ok program =>
    let ((verdict, notes), check) ← measured fun _ => checkProgram program
    return report { scan, parse, check } color options source (.checked tokens program verdict notes)

/-- The contents of a file. -/
def readFile (path : String) : IO (Option ByteArray) := do
  try
    return some (← IO.FS.readBinFile path)
  catch _ => return none

/-- The answer for the arguments of the process. -/
def answer (args : List String) : IO Output := do
  match CommandLine.plan (args.map textOfString) with
  | .answer output => return output
  | .compileFile options path =>
    let name := (String.fromUTF8? (bytesOf path)).getD ""
    match ← readFile name with
    | none => return CommandLine.cannotOpen ⟨path⟩
    | some bytes =>
      let attached ← (← IO.getStderr).isTty
      let colorVariable := (← IO.getEnv "QUILL_COLOR").map textOfString
      let color := CommandLine.colored options { attached, colorVariable }
      return CommandLine.conclude (← compileMeasured color options ⟨textOf bytes, path⟩)

end FrontEnd.Main

/-- Runs the program. -/
def main (args : List String) : IO UInt32 := do
  let output ← FrontEnd.Main.answer args
  let stdout ← IO.getStdout
  let stderr ← IO.getStderr
  stdout.write (FrontEnd.Main.bytesOf output.out)
  stdout.flush
  stderr.write (FrontEnd.Main.bytesOf output.err)
  stderr.flush
  return output.code.toUInt32
