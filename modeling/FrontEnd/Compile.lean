import FrontEnd.Diagnostic
import FrontEnd.Metrics.Summary
import FrontEnd.Options
import FrontEnd.Syntax.Dump
import FrontEnd.Syntax.Parser
import FrontEnd.Syntax.Survey
import FrontEnd.Token.Reader
import FrontEnd.Typing

/-!
# Compiling a source

* `readProgram`, `checkProgram` : reading the tokens of a program, and checking its tree; `TokenReader.readProgram` :
  reading one where a reader stands;
* `Findings` : what the stages found out about a source, `Findings.ofSource` : all of them in order;
* `report` : the output for some findings, with the times that the stages took;
* `compile` : the output for a source.

A program that cannot be read or does not check has exit code 1 and one diagnostic. What the options ask for is written
either way, as far as the stages have come.
-/

namespace FrontEnd

/-- An exit code with what is written to the standard output and to the standard error output. -/
structure Output where
  code : Nat
  out : Text := []
  err : Text := []
deriving DecidableEq, Inhabited

/-- The microseconds that the stages took. -/
structure Timings where
  scan : Nat := 0
  parse : Nat := 0
  check : Nat := 0
deriving DecidableEq, Inhabited

/-- The tree of the program that the tokens hold. -/
def readProgram (tokens : TokenStream) : Except Fault Expr :=
  match Parse.program tokens with
  | .ok p => .ok p.value
  | .error failure => .error failure.fault

/-- The tree of the program that is left to read. The reader stays where reading stopped, in either case. -/
def TokenReader.readProgram (r : TokenReader) : Except Fault Expr × TokenReader :=
  (FrontEnd.readProgram r.rest, r.leave (Parse.program r.rest).left)

/-- The path of the root of a program. -/
def programRoot : Path := Path.root 0

/-- The type of a program or what is wrong with it, and the notes that checking made in either case. -/
def checkProgram (program : Expr) : Except Fault Ty × Notes :=
  match Typing.check programRoot program {} with
  | .ok t env => (.ok t, env.notes)
  | .error fault env => (.error fault, env.notes)

/-- What the stages found out. -/
inductive Findings where
  /-- The tokens are no program. -/
  | unreadable (tokens : TokenStream) (fault : Fault)
  /-- The tokens are a program, which has a type or is at fault; checking has made notes in either case. -/
  | checked (tokens : TokenStream) (program : Expr) (verdict : Except Fault Ty) (notes : Notes)

/-- The findings of all stages. -/
def Findings.ofSource (source : Source) : Findings :=
  let tokens := TokenStream.ofSources [source]
  match readProgram tokens with
  | .error fault => .unreadable tokens fault
  | .ok program =>
    let (verdict, notes) := checkProgram program
    .checked tokens program verdict notes

namespace Report

/-- The dump of a token: its place, its kind and its text. -/
def tokenLine (t : Token) : Text :=
  Text.ofInt t.loc.line ++ ':' :: Text.ofInt t.loc.col ++ ' ' :: t.kind.name ++
    (if t.text.isEmpty then [] else ' ' :: t.text.quoted)

/-- The dump of all tokens. -/
def tokenDump (tokens : TokenStream) : Text :=
  Text.ofLines (("== Tokens ==" : Text) :: tokens.toList.map tokenLine)

/-- The dump of a tree under a heading. -/
def treeDump (heading : Text) (notes : Notes) (program : Expr) : Text :=
  Text.ofLines [heading] ++ program.dump notes programRoot

/-- The figures of a run that has come to its end. -/
def figures (times : Timings) (functions : List Function) (statements : List Expr) (program : Expr) (ok : Bool) :
    Metrics :=
  let metrics : Metrics := {}
  let metrics := (metrics.start "Lex" 0).stop "Lex" times.scan
  let metrics := (metrics.start "Parse" 0).stop "Parse" times.parse
  let metrics := metrics.increment "parse.functions" functions.length.toUInt64
  let metrics := metrics.increment "parse.statements" statements.length.toUInt64
  let metrics := metrics.setGeometry program.geometry
  let metrics := (metrics.start "Check" 0).stop "Check" times.check
  metrics.setGauge "check.ok" (if ok then 1 else 0)

/-- The functions and statements of a program. -/
def parts : Expr → List Function × List Expr
  | .block _ functions statements => (functions, statements)
  | e => ([], [e])

end Report

/-- The diagnostic for a fault of the program. -/
def complaint (color : Bool) (o : Options) (source : Source) (f : Fault) : Except Fault Text :=
  match Diagnostic.ofFault? f with
  | some d => .ok (d.render color o.context source.text)
  | none => .error f

open Report in
/-- The output for some findings. A fault that is not the program's leaves no output. -/
def report (times : Timings) (color : Bool) (o : Options) (source : Source) : Findings → Except Fault Output
  | .unreadable tokens fault => do
    let out := if o.logTokens then tokenDump tokens else []
    return ⟨1, out, ← complaint color o source fault⟩
  | .checked tokens program verdict notes => do
    let (functions, statements) := parts program
    let metrics := figures times functions statements program verdict.isOk
    let out := (if o.logTokens then tokenDump tokens else []) ++
      (if o.treeLog.logsBefore then treeDump "== AST (parsed) ==" {} program else []) ++
      (if o.treeLog.logsAfter then treeDump "== AST (checked) ==" notes program else []) ++
      (if o.metrics then metrics.summaryText else []) ++
      (if o.metricsJson then metrics.summaryJson else [])
    match verdict with
    | .ok _ => return ⟨0, out, []⟩
    | .error fault => return ⟨1, out, ← complaint color o source fault⟩

/-- The output for a source. -/
def compile (times : Timings) (color : Bool) (o : Options) (source : Source) : Except Fault Output :=
  report times color o source (.ofSource source)

end FrontEnd
