import FrontEnd.Diagnostic

/-!
# Options

* `Options` : what the command line asks for;
* `Options.applyFlag?`, `Options.applyValued` : the effect of an option without and with a value;
* `OptionError` : a value that an option does not take;
* `Options.read` : the effect of a list of arguments, up to the first one that is wrong.
-/

namespace FrontEnd

/-- When the syntax tree is dumped: after reading, after checking, or both. -/
inductive TreeLog where
  | none | before | after | both
deriving DecidableEq, Inhabited

namespace TreeLog

/-- Whether the tree is dumped as it was read. -/
def logsBefore : TreeLog → Bool
  | before | both => true
  | _ => false

/-- Whether the tree is dumped as it was checked. -/
def logsAfter : TreeLog → Bool
  | after | both => true
  | _ => false

end TreeLog

/-- What a command line asks for. -/
structure Options where
  inputs : List Text := []
  showHelp : Bool := false
  logTokens : Bool := false
  treeLog : TreeLog := .none
  metrics : Bool := false
  metricsJson : Bool := false
  color : ColorMode := .auto
  /-- The number of lines shown in front of the line of an error. -/
  context : Int := 1
deriving DecidableEq, Inhabited

/-- A value that an option does not take. -/
inductive OptionError where
  | treeLog (value : Text)
  | color (value : Text)
  | context (value : Text)
  | contextRange (value : Text)
deriving DecidableEq, Inhabited

/-- The wording of a wrong value, up to the first zero byte. -/
def OptionError.message (e : OptionError) : Text :=
  Text.upToNul <| match e with
    | treeLog value => "invalid --ast-log mode " ++ value.quoted
    | color value => "invalid --color mode " ++ value.quoted
    | context value => "invalid --diag-context value " ++ value.quoted
    | contextRange value => "--diag-context value out of range " ++ value.quoted

/-- The value of the option that dumps trees. -/
def TreeLog.ofValue (value : Text) : Except OptionError TreeLog :=
  if value = "before" then .ok .before
  else if value = "after" then .ok .after
  else if value = "both" then .ok .both
  else .error (.treeLog value)

/-- The value of the option for colours. -/
def ColorMode.ofValue (value : Text) : Except OptionError ColorMode :=
  if value = "always" then .ok .always
  else if value = "never" then .ok .never
  else if value = "auto" then .ok .auto
  else .error (.color value)

/-- The value of the option for context: a decimal number of at most 31 bits, maybe with a minus in front; a negative
number counts as 0. A number that is too large is reported before what follows it is looked at. -/
def contextOfValue (value : Text) : Except OptionError Int :=
  let negative := value.head? = some '-'
  let body := if negative then value.tail else value
  let digits := body.takeWhile Char.isDigit
  let n := Text.digitsValue digits
  if digits.isEmpty then .error (.context value)
  else if (if negative then 2147483648 else 2147483647) < n then .error (.contextRange value)
  else if digits.length ≠ body.length then .error (.context value)
  else .ok (if negative then 0 else n)

/-- What follows `start` at the front of `t`. -/
def Text.after? (start t : Text) : Option Text := if start.isPrefixOf t then some (t.drop start.length) else none

namespace Options

/-- `o` after an option without a value. Asking for a tree dump without saying when asks for the tree as read. -/
def applyFlag? (o : Options) (arg : Text) : Option Options :=
  if arg = "-h" ∨ arg = "--help" then some { o with showHelp := true }
  else if arg = "--metrics" then some { o with metrics := true }
  else if arg = "--metrics-json" then some { o with metricsJson := true }
  else if arg = "--log-lexer" then some { o with logTokens := true }
  else if arg = "--ast-log" then some { o with treeLog := .before }
  else none

/-- `o` after an option with a value, if `arg` is one. -/
def applyValued (o : Options) (arg : Text) : Except OptionError (Option Options) :=
  match Text.after? "--ast-log=" arg with
  | some value => do return some { o with treeLog := ← TreeLog.ofValue value }
  | none =>
    match Text.after? "--color=" arg with
    | some value => do return some { o with color := ← ColorMode.ofValue value }
    | none =>
      match Text.after? "--diag-context=" arg with
      | some value => do return some { o with context := ← contextOfValue value }
      | none => .ok none

/-- Whether an argument looks like an option. A lone `-` does not. -/
def looksLikeOption (arg : Text) : Bool := 1 < arg.length && arg.head? == some '-'

/-- What is wrong with a command line. -/
inductive Problem where
  | unknownOption (arg : Text)
  | invalid (error : OptionError)
  | tooManyInputs (count : Nat)
deriving DecidableEq, Inhabited

/-- The wording of a problem. -/
def Problem.message : Problem → Text
  | unknownOption arg => "unknown option " ++ arg.quoted
  | invalid error => error.message
  | tooManyInputs count => "expected one input file, got " ++ Text.ofNat count

/-- `o` after all arguments, and the problem when there is more than one input. -/
def finish (o : Options) : Options × Option Problem :=
  (o, if 1 < o.inputs.length then some (.tooManyInputs o.inputs.length) else none)

/-- `o` after some arguments, and what is wrong with them. After `--` every argument is an input. What was applied
before a problem stays applied. -/
def read (o : Options) : List Text → Options × Option Problem
  | [] => o.finish
  | arg :: args =>
    if arg = "--" then finish { o with inputs := o.inputs ++ args }
    else
      match o.applyFlag? arg with
      | some o' => o'.read args
      | none =>
        match o.applyValued arg with
        | .error e => (o, some (.invalid e))
        | .ok (some o') => o'.read args
        | .ok none =>
          if looksLikeOption arg then (o, some (.unknownOption arg))
          else read { o with inputs := o.inputs ++ [arg] } args

end Options
end FrontEnd
