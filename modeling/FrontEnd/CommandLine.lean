import FrontEnd.Compile
import FrontEnd.Files

/-!
# The command line

* `CommandLine.usage` : the text of the help;
* `CommandLine.Terminal` : what the process says about colours;
* `CommandLine.plan` : what a list of arguments leads to, an answer at once or the compilation of a file;
* `CommandLine.conclude` : the answer for a compilation that may have failed inside;
* `CommandLine.run` : the answer for a list of arguments.

Exit code 2 stands for a command line that is wrong or a file that cannot be opened, exit code 1 for an error in the
program or a fault inside.
-/

namespace FrontEnd.CommandLine

/-- The text of the help. -/
def usage : Text :=
  Text.ofLines [
    "quillc [options] file.ql",
    "",
    "Parse and type check a quill program.",
    "",
    "Options:",
    "  -h, --help           Print this help and exit",
    "  --metrics            Print stage timings and AST metrics",
    "  --metrics-json       Print stage timings and AST metrics in JSON",
    "  --ast-log[=<mode>]   Dump AST: before|after|both (default: before)",
    "  --log-lexer          Dump the token stream",
    "  --color=<mode>       Color diagnostics: always|never|auto (default: auto)",
    "  --diag-context=<N>   Lines of context to show around errors (default: 1)",
    "  --                   End of options"]

/-- A line that the program writes about itself. -/
def notice (message : Text) : Text := "quillc: " ++ message ++ ['\n']

/-- Whether the standard error output is a terminal, and the value of the colour variable. -/
structure Terminal where
  attached : Bool := false
  colorVariable : Option Text := none
deriving DecidableEq, Inhabited

/-- What a list of arguments leads to. -/
inductive Plan where
  | answer (output : Output)
  | compileFile (options : Options) (path : Text)
deriving DecidableEq

/-- What to do for a list of arguments. -/
def plan (args : List Text) : Plan :=
  match Options.read {} args with
  | (_, some problem) => .answer { code := 2, err := notice problem.message ++ usage }
  | (options, none) =>
    if options.showHelp then .answer { code := 0, out := usage }
    else
      match options.inputs with
      | [] => .answer { code := 2, err := notice "no input files provided" }
      | path :: _ => .compileFile options path

/-- Whether diagnostics are coloured. -/
def colored (options : Options) (terminal : Terminal) : Bool :=
  options.color.resolve terminal.attached terminal.colorVariable

/-- The answer when a file cannot be opened. -/
def cannotOpen (failure : OpenFailure) : Output := { code := 2, err := notice failure.message }

/-- The answer for a compilation. -/
def conclude : Except Fault Output → Output
  | .ok output => output
  | .error fault => { code := 1, err := notice ("internal error: " ++ fault.report) }

/-- The answer for a list of arguments. -/
def run (times : Timings) (files : Files) (terminal : Terminal) (args : List Text) : Output :=
  match plan args with
  | .answer output => output
  | .compileFile options path =>
    match files.read path with
    | .error failure => cannotOpen failure
    | .ok text => conclude (compile times (colored options terminal) options ⟨text, path⟩)

end FrontEnd.CommandLine
