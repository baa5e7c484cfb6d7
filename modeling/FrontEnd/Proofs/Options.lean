import FrontEnd.Options
import Mathlib.Data.List.TakeWhile

/-!
# Command lines that say what is asked for

* `Options.Field`, `Options.Agree`, `Options.adopt` : the fields that option arguments set, whether two command lines
  ask for the same in a field, and taking over a field;
* `Options.Asks` : the arguments that ask for what a field holds, and for nothing else;
* `Options.read_cons_of_asks` : reading such an argument takes over the field;
  `Options.read_append_of_asks` : reading several of them takes over their fields, in any order and however often;
* `Options.read_spelled` : a command line that asks for every field that is not left as it is, and then names the input
  behind `--`, is read as what it says.
-/

namespace FrontEnd

/-- The value of the option that asks for this dump of trees, if one does. -/
def TreeLog.value? : TreeLog → Option Text
  | none => .none
  | before => some "before"
  | after => some "after"
  | both => some "both"

theorem TreeLog.ofValue_value {mode : TreeLog} {value : Text} (h : mode.value? = some value) :
    ofValue value = .ok mode := by
  cases mode <;> cases h <;> rfl

/-- The value of the option for colours that asks for this mode. -/
def ColorMode.value : ColorMode → Text
  | auto => "auto"
  | always => "always"
  | never => "never"

theorem ColorMode.ofValue_value (mode : ColorMode) : ofValue mode.value = .ok mode := by
  cases mode <;> rfl

theorem contextOfValue_digits {digits : Text} (hne : digits ≠ []) (hdigits : ∀ d ∈ digits, d.isDigit)
    (hle : Text.digitsValue digits ≤ 2147483647) : contextOfValue digits = .ok (Text.digitsValue digits) := by
  have hsign : digits.head? ≠ some '-' := by
    intro h
    have hminus : '-'.isDigit := hdigits _ (List.mem_of_mem_head? h)
    cases hminus
  have hall : digits.takeWhile Char.isDigit = digits := List.takeWhile_eq_self_iff.2 hdigits
  have hempty : digits.isEmpty = false := by simpa using hne
  simp [contextOfValue, hsign, hall, hempty, Nat.not_lt.2 hle]

theorem Text.after?_append (start t : Text) : after? start (start ++ t) = some t := by
  simp [after?]

namespace Options

/-! ## Fields -/

/-- What option arguments set. -/
inductive Field where
  | showHelp | metrics | metricsJson | logTokens | treeLog | color | context
deriving DecidableEq

/-- Whether `o` and `o'` ask for the same in a field. -/
def Agree (o o' : Options) : Field → Prop
  | .showHelp => o.showHelp = o'.showHelp
  | .metrics => o.metrics = o'.metrics
  | .metricsJson => o.metricsJson = o'.metricsJson
  | .logTokens => o.logTokens = o'.logTokens
  | .treeLog => o.treeLog = o'.treeLog
  | .color => o.color = o'.color
  | .context => o.context = o'.context

/-- `o` with a field as it is in `o'`. -/
def adopt (o o' : Options) : Field → Options
  | .showHelp => { o with showHelp := o'.showHelp }
  | .metrics => { o with metrics := o'.metrics }
  | .metricsJson => { o with metricsJson := o'.metricsJson }
  | .logTokens => { o with logTokens := o'.logTokens }
  | .treeLog => { o with treeLog := o'.treeLog }
  | .color => { o with color := o'.color }
  | .context => { o with context := o'.context }

theorem adopt_inputs (o o' : Options) (f : Field) : (o.adopt o' f).inputs = o.inputs := by
  cases f <;> rfl

theorem agree_adopt_self (o o' : Options) (f : Field) : Agree (o.adopt o' f) o' f := by
  cases f <;> rfl

theorem Agree.adopt {o o' : Options} {f : Field} (h : Agree o o' f) (g : Field) : Agree (o.adopt o' g) o' f := by
  cases g <;> cases f <;> first | exact h | rfl

theorem Agree.of_inputs {o o' : Options} {f : Field} (h : Agree o o' f) (inputs : List Text) :
    Agree { o with inputs } o' f := by
  cases f <;> exact h

theorem eq_of_agree {o o' : Options} (hinputs : o.inputs = o'.inputs) (h : ∀ f, Agree o o' f) : o = o' := by
  have hhelp := h .showHelp
  have hmetrics := h .metrics
  have hjson := h .metricsJson
  have htokens := h .logTokens
  have htree := h .treeLog
  have hcolor := h .color
  have hcontext := h .context
  simp only [Agree] at hhelp hmetrics hjson htokens htree hcolor hcontext
  cases o
  cases o'
  simp_all

/-! ## Arguments -/

/-- The argument asks for what `o` holds in the field. -/
inductive Asks (o : Options) : Field → Text → Prop
  | help (h : o.showHelp = true) : Asks o .showHelp "-h"
  | longHelp (h : o.showHelp = true) : Asks o .showHelp "--help"
  | metrics (h : o.metrics = true) : Asks o .metrics "--metrics"
  | metricsJson (h : o.metricsJson = true) : Asks o .metricsJson "--metrics-json"
  | logTokens (h : o.logTokens = true) : Asks o .logTokens "--log-lexer"
  | treeLogBefore (h : o.treeLog = .before) : Asks o .treeLog "--ast-log"
  | treeLog {value : Text} (h : o.treeLog.value? = some value) : Asks o .treeLog ("--ast-log=" ++ value)
  | color : Asks o .color ("--color=" ++ o.color.value)
  | context {digits : Text} (hne : digits ≠ []) (hdigits : ∀ d ∈ digits, d.isDigit)
    (hvalue : Text.digitsValue digits = o.context) : Asks o .context ("--diag-context=" ++ digits)

variable {o target : Options} {arg : Text} {args : List Text}

theorem read_cons_of_flag {o' : Options} (hdash : arg ≠ "--") (h : o.applyFlag? arg = some o') :
    o.read (arg :: args) = o'.read args := by
  rw [read, if_neg hdash, h]

theorem read_cons_of_valued {o' : Options} (hdash : arg ≠ "--") (hflag : o.applyFlag? arg = none)
    (h : o.applyValued arg = .ok (some o')) : o.read (arg :: args) = o'.read args := by
  rw [read, if_neg hdash, hflag]
  simp only [h]

/-- Reading an argument takes over the field that it asks for. -/
theorem read_cons_of_asks {f : Field} (h : target.Asks f arg) (hcontext : target.context ≤ 2147483647) :
    o.read (arg :: args) = (o.adopt target f).read args := by
  cases h with
  | help h | longHelp h | metrics h | metricsJson h | logTokens h | treeLogBefore h =>
    rw [adopt, h]
    exact read_cons_of_flag (by decide) rfl
  | treeLog h =>
    refine read_cons_of_valued (by simp) (by rfl) ?_
    rw [applyValued, Text.after?_append]
    simp only [TreeLog.ofValue_value h]
    rfl
  | color =>
    have hnone : Text.after? "--ast-log=" ("--color=" ++ target.color.value) = none := rfl
    refine read_cons_of_valued (by simp) (by rfl) ?_
    rw [applyValued, hnone, Text.after?_append]
    simp only [ColorMode.ofValue_value]
    rfl
  | @context digits hne hdigits hvalue =>
    have htree : Text.after? "--ast-log=" ("--diag-context=" ++ digits) = none := rfl
    have hcolor : Text.after? "--color=" ("--diag-context=" ++ digits) = none := rfl
    have hle : Text.digitsValue digits ≤ 2147483647 := by omega
    refine read_cons_of_valued (by simp) (by rfl) ?_
    rw [applyValued, htree, hcolor, Text.after?_append]
    simp only [contextOfValue_digits hne hdigits hle, hvalue]
    rfl

/-- What an argument asks for is taken over, whichever field it is read as asking for. -/
theorem adopt_eq_of_asks {f g : Field} (hf : target.Asks f arg) (hg : target.Asks g arg)
    (hcontext : target.context ≤ 2147483647) : o.adopt target f = o.adopt target g := by
  have hread : o.read [arg] = (o.adopt target f).read [] := read_cons_of_asks hf hcontext
  have hread' : o.read [arg] = (o.adopt target g).read [] := read_cons_of_asks hg hcontext
  exact congrArg Prod.fst (hread.symm.trans hread')

/-- Reading arguments takes over the fields that they ask for and keeps what agrees already. -/
theorem read_append_of_asks (hcontext : target.context ≤ 2147483647) (hargs : ∀ arg ∈ args, ∃ f, target.Asks f arg)
    (tail : List Text) :
    ∃ o', o.read (args ++ tail) = o'.read tail ∧ o'.inputs = o.inputs ∧
      ∀ f, (Agree o target f ∨ ∃ arg ∈ args, target.Asks f arg) → Agree o' target f := by
  induction args generalizing o with
  | nil => exact ⟨o, rfl, rfl, fun f h => by simpa using h⟩
  | cons arg args ih =>
    obtain ⟨g, hg⟩ := hargs arg List.mem_cons_self
    obtain ⟨o', hread, hinputs, hagree⟩ := ih (o := o.adopt target g) fun arg hm => hargs arg (.tail _ hm)
    refine ⟨o', ?_, hinputs.trans (adopt_inputs ..), fun f hf => hagree f ?_⟩
    · rw [List.cons_append, read_cons_of_asks hg hcontext, hread]
    · rcases hf with hf | ⟨other, hm, hf⟩
      · exact .inl (hf.adopt g)
      · rcases List.mem_cons.1 hm with rfl | hm
        · exact .inl (adopt_eq_of_asks hf hg hcontext ▸ agree_adopt_self o target f)
        · exact .inr ⟨other, hm, hf⟩

/-- A command line that asks, in any order and however often, for what `o` holds in every field that is not left as it
is, and names the input of `o` behind `--`, is read as `o` without a problem. The `--` may be left out when there is no
input. -/
theorem read_spelled {tail : List Text} (hinputs : o.inputs.length ≤ 1)
    (hcontext : 0 ≤ o.context ∧ o.context ≤ 2147483647) (hargs : ∀ arg ∈ args, ∃ f, o.Asks f arg)
    (hgiven : ∀ f, ¬ Agree {} o f → ∃ arg ∈ args, o.Asks f arg)
    (htail : tail = "--".toList :: o.inputs ∨ o.inputs = [] ∧ tail = []) :
    read {} (args ++ tail) = (o, none) := by
  obtain ⟨o', hread, hnone, hagree⟩ := read_append_of_asks (o := {}) hcontext.2 hargs tail
  have hfields : ∀ f, Agree o' o f := fun f => hagree f (Classical.or_iff_not_imp_left.2 (hgiven f))
  have hfinish : o.finish = (o, none) := by rw [finish, if_neg (by omega)]
  rw [hread]
  rcases htail with rfl | ⟨hempty, rfl⟩
  · have heq : { o' with inputs := o'.inputs ++ o.inputs } = o :=
      eq_of_agree (by simp [hnone]) fun f => (hfields f).of_inputs _
    rw [read, if_pos rfl, heq, hfinish]
  · obtain rfl : o' = o := eq_of_agree (hnone.trans hempty.symm) hfields
    exact hfinish

/-- Options in an odd order, one of them given twice, and an input that looks like the end of the options. -/
theorem read_spelled_twice :
    let args : List Text := ["--ast-log=both", "--metrics-json", "--diag-context=007", "--ast-log=both"]
    let o : Options := { inputs := ["--"], treeLog := .both, metricsJson := true, context := 7 }
    read {} (args ++ ("--".toList :: ["--".toList])) = (o, none) := by
  intro args o
  have hdigits : ∀ d ∈ "007".toList, d.isDigit := by simp
  have hboth : o.Asks .treeLog "--ast-log=both" := @Asks.treeLog o "both" rfl
  have hcontext : o.Asks .context "--diag-context=007" := @Asks.context o "007" (by decide) hdigits rfl
  have hinputs : o.inputs.length ≤ 1 := Nat.le_refl 1
  have hrange : 0 ≤ o.context ∧ o.context ≤ 2147483647 := ⟨by decide, by decide⟩
  refine read_spelled hinputs hrange ?_ (fun f hf => ?_) (.inl rfl)
  · exact List.forall_mem_cons.2 ⟨⟨_, hboth⟩, List.forall_mem_cons.2 ⟨⟨_, .metricsJson rfl⟩,
      List.forall_mem_cons.2 ⟨⟨_, hcontext⟩, List.forall_mem_singleton.2 ⟨_, hboth⟩⟩⟩⟩
  · cases f with
    | showHelp | metrics | logTokens | color => exact absurd rfl hf
    | metricsJson => exact ⟨_, .tail _ (.head _), .metricsJson rfl⟩
    | treeLog => exact ⟨_, .head _, hboth⟩
    | context => exact ⟨_, .tail _ (.tail _ (.head _)), hcontext⟩

end Options
end FrontEnd
