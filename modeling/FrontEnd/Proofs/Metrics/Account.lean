import FrontEnd.Proofs.Metrics.Summary
import FrontEnd.Proofs.Outline
import FrontEnd.Text.Lines
import Mathlib.Data.List.Induction

/-!
# What metrics make of their history

* `Metrics.Running`, `Metrics.Finished`, `Metrics.firstStarts` : what a history says of a stage, and which stages it
  starts, in order; `Metrics.running_concat`, `Metrics.finished_concat` : what one more action does to that;
* `Metrics.isRunning_run`, `Metrics.isFinished_run`, `Metrics.names_run` : the stages are what the history says;
* `Metrics.counters_run`, `Metrics.gauges_run` : a counter is the sum of what was added, a gauge what was set last;
* `Metrics.Figure` : the figures that metrics consist of; `Metrics.Figure.same_apply` : an action changes the one that
  it is about and no other;
* `Metrics.stageLine`, `Metrics.figureLines` : what the summary is made of; `Metrics.ShowsStages` : lines that show
  stages, `Metrics.showsStages_summaryText_iff` : those of the summary show the finished stages and no others;
* `Metrics.Reflects`, `Metrics.reflects_run` : all this of every sequence of actions.
-/

namespace FrontEnd
namespace Metrics
variable {m : Metrics} {actions : List Action} {action : Action} {name : Text}

/-! ## What a history says -/

/-- The stage has been started since it was last stopped. -/
def Running (actions : List Action) (name : Text) : Prop :=
  ∃ before now after, actions = before ++ .start name now :: after ∧ ∀ later, .stop name later ∉ after

/-- The stage has been stopped when it was running. -/
def Finished (actions : List Action) (name : Text) : Prop :=
  ∃ before now after, actions = before ++ .stop name now :: after ∧ Running before name

/-- The stage that an action starts. -/
def Action.started? : Action → Option Text
  | start stage _ => some stage
  | _ => none

/-- What an action adds to a counter. -/
def Action.delta? (key : Text) : Action → Option UInt64
  | increment other delta => if other = key then some delta else none
  | _ => none

/-- What an action sets a gauge to. -/
def Action.value? (key : Text) : Action → Option UInt64
  | setGauge other value => if other = key then some value else none
  | _ => none

/-- The stages in the order of their first starts. -/
def firstStarts (actions : List Action) : List Text := (actions.filterMap Action.started?).eraseDups

/-! ### One more action -/

/-- An action of a longer history is the last one, or belongs to the history in front of that. -/
theorem concat_eq_append_cons_iff {before after : List Action} {a b : Action} :
    actions ++ [a] = before ++ b :: after ↔
      (after = [] ∧ before = actions ∧ b = a) ∨ ∃ rest, after = rest ++ [a] ∧ actions = before ++ b :: rest := by
  constructor
  · intro h
    rcases after.eq_nil_or_concat with rfl | ⟨rest, c, rfl⟩
    · obtain ⟨rfl, hlast⟩ := List.append_inj' h rfl
      exact .inl ⟨rfl, rfl, (List.cons.inj hlast).1.symm⟩
    · rw [List.concat_eq_append, ← List.cons_append, ← List.append_assoc] at h
      obtain ⟨hfront, hlast⟩ := List.append_inj' h rfl
      exact .inr ⟨rest, by rw [List.concat_eq_append, (List.cons.inj hlast).1], hfront⟩
  · rintro (⟨rfl, rfl, rfl⟩ | ⟨rest, rfl, rfl⟩)
    · rfl
    · rw [List.append_assoc, List.cons_append]

theorem not_running_nil : ¬ Running [] name := by
  rintro ⟨before, now, after, h, -⟩
  exact List.append_ne_nil_of_right_ne_nil _ (List.cons_ne_nil _ _) h.symm

theorem not_finished_nil : ¬ Finished [] name := by
  rintro ⟨before, now, after, h, -⟩
  exact List.append_ne_nil_of_right_ne_nil _ (List.cons_ne_nil _ _) h.symm

theorem running_concat : Running (actions ++ [action]) name ↔
    (∃ now, action = .start name now) ∨ Running actions name ∧ ∀ now, action ≠ .stop name now := by
  constructor
  · rintro ⟨before, now, after, h, hno⟩
    rcases concat_eq_append_cons_iff.1 h with ⟨-, -, hstart⟩ | ⟨rest, rfl, hactions⟩
    · exact .inl ⟨now, hstart.symm⟩
    · refine .inr ⟨⟨before, now, rest, hactions, fun later hm => hno later (List.mem_append_left _ hm)⟩, ?_⟩
      rintro later rfl
      exact hno later (List.mem_append_right _ (List.mem_singleton_self _))
  · rintro (⟨now, rfl⟩ | ⟨⟨before, now, after, rfl, hno⟩, hstop⟩)
    · exact ⟨actions, now, [], rfl, fun _ => List.not_mem_nil⟩
    · refine ⟨before, now, after ++ [action], concat_eq_append_cons_iff.2 (.inr ⟨after, rfl, rfl⟩), ?_⟩
      intro later hm
      rcases List.mem_append.1 hm with hm | hm
      · exact hno later hm
      · exact hstop later (List.mem_singleton.1 hm).symm

theorem finished_concat : Finished (actions ++ [action]) name ↔
    Finished actions name ∨ Running actions name ∧ ∃ now, action = .stop name now := by
  constructor
  · rintro ⟨before, now, after, h, hrunning⟩
    rcases concat_eq_append_cons_iff.1 h with ⟨-, rfl, hstop⟩ | ⟨rest, rfl, hactions⟩
    · exact .inr ⟨hrunning, now, hstop.symm⟩
    · exact .inl ⟨before, now, rest, hactions, hrunning⟩
  · rintro (⟨before, now, after, rfl, hrunning⟩ | ⟨hrunning, now, rfl⟩)
    · exact ⟨before, now, after ++ [action], concat_eq_append_cons_iff.2 (.inr ⟨after, rfl, rfl⟩), hrunning⟩
    · exact ⟨actions, now, [], rfl, hrunning⟩

theorem eraseDups_concat (names : List Text) (name : Text) : (names ++ [name]).eraseDups =
    if name ∈ names.eraseDups then names.eraseDups else names.eraseDups ++ [name] := by
  rw [List.eraseDups_append]
  by_cases h : name ∈ names
  · simp [List.removeAll, h]
  · simp [List.removeAll, h, List.eraseDups_cons]

/-- A stage that is started again keeps its place. -/
theorem firstStarts_concat : firstStarts (actions ++ [action]) =
    match action.started? with
    | none => firstStarts actions
    | some stage => if stage ∈ firstStarts actions then firstStarts actions else firstStarts actions ++ [stage] := by
  rw [firstStarts, List.filterMap_append]
  cases h : action.started? with
  | none => simp [h, firstStarts]
  | some stage =>
    rw [List.filterMap_cons_some h, List.filterMap_nil, eraseDups_concat]
    rfl

/-! ## Stages -/

theorem run_concat (actions : List Action) (action : Action) : run (actions ++ [action]) = (run actions).apply action :=
  List.foldl_concat ..

/-- The stage with this name. -/
def stage? (m : Metrics) (name : Text) : Option Stage := m.stages.find? (·.name = name)

/-- Whether a stage is running. -/
def isRunning (m : Metrics) (name : Text) : Bool := (m.stage? name).any (·.running.isSome)

/-- Whether a stage has a time. -/
def isFinished (m : Metrics) (name : Text) : Bool := (m.stage? name).any (·.micros.isSome)

theorem find?_startStage (name other : Text) (now : Nat) (stages : List Stage) :
    (startStage name now stages).find? (·.name = other) =
      if other = name then some (((stages.find? (·.name = name)).getD { name }).start now)
      else stages.find? (·.name = other) := by
  induction stages with
  | nil =>
    by_cases h : other = name
    · subst h
      simp [startStage, Stage.start]
    · simp [startStage, h, Ne.symm h]
  | cons s stages ih =>
    by_cases hs : s.name = name
    · subst hs
      by_cases h : other = s.name
      · subst h
        simp [startStage, Stage.start]
      · simp [startStage, Stage.start, h, Ne.symm h]
    · rw [startStage, if_neg hs, List.find?_cons, ih, List.find?_cons, List.find?_cons]
      by_cases h : other = name
      · subst h
        simp [hs]
      · simp [h]

theorem stage?_start (m : Metrics) (name other : Text) (now : Nat) : (m.start name now).stage? other =
    if other = name then some (((m.stage? name).getD { name }).start now) else m.stage? other :=
  find?_startStage name other now m.stages

theorem stage?_stop (m : Metrics) (name other : Text) (now : Nat) : (m.stop name now).stage? other =
    if other = name then (m.stage? name).map (·.stop now) else m.stage? other := by
  have hname : ((fun s : Stage => decide (s.name = other)) ∘ fun s => if s.name = name then s.stop now else s) =
      fun s => decide (s.name = other) := by
    funext s
    rw [Function.comp]
    split
    · rw [s.name_stop]
    · rfl
  rw [stage?, stop, List.find?_map, hname, ← stage?]
  cases hs : m.stage? other with
  | none => split <;> simp_all
  | some s =>
    obtain rfl : s.name = other := by simpa using List.find?_some hs
    by_cases h : s.name = name
    · subst h
      simp [hs]
    · simp [h]

theorem isRunning_apply (m : Metrics) (action : Action) (name : Text) : (m.apply action).isRunning name ↔
    (∃ now, action = .start name now) ∨ m.isRunning name ∧ ∀ now, action ≠ .stop name now := by
  cases action with
  | start stage now =>
    rw [isRunning, apply, stage?_start]
    by_cases h : name = stage
    · simp [h, Stage.start]
    · simp [h, Ne.symm h, isRunning]
  | stop stage now =>
    rw [isRunning, apply, stage?_stop]
    by_cases h : name = stage
    · subst h
      cases m.stage? name with
      | none => simp
      | some s => cases hs : s.running <;> simp [Stage.stop, hs]
    · simp [h, Ne.symm h, isRunning]
  | increment | setGauge | setGeometry => simp [isRunning, apply, stage?, increment, setGauge, setGeometry]

theorem isFinished_apply (m : Metrics) (action : Action) (name : Text) : (m.apply action).isFinished name ↔
    m.isFinished name ∨ m.isRunning name ∧ ∃ now, action = .stop name now := by
  cases action with
  | start stage now =>
    rw [isFinished, apply, stage?_start]
    by_cases h : name = stage
    · subst h
      cases hs : m.stage? name <;> simp [Stage.start, isFinished, hs]
    · simp [h, isFinished]
  | stop stage now =>
    rw [isFinished, apply, stage?_stop]
    by_cases h : name = stage
    · subst h
      cases hstage : m.stage? name with
      | none => simp [isFinished, isRunning, hstage]
      | some s => cases hs : s.running <;> simp [Stage.stop, isFinished, isRunning, hstage, hs]
    · simp [h, Ne.symm h, isFinished]
  | increment | setGauge | setGeometry => simp [isFinished, apply, stage?, increment, setGauge, setGeometry]

/-- The stages that are running are those that the history says so of. -/
theorem isRunning_run (actions : List Action) (name : Text) : (run actions).isRunning name ↔ Running actions name := by
  induction actions using List.reverseRecOn with
  | nil => exact iff_of_false (by simp [run, isRunning, stage?]) not_running_nil
  | append_singleton actions action ih => rw [run_concat, isRunning_apply, ih, running_concat]

/-- The stages that have a time are those that the history says were stopped when they were running. -/
theorem isFinished_run (actions : List Action) (name : Text) :
    (run actions).isFinished name ↔ Finished actions name := by
  induction actions using List.reverseRecOn with
  | nil => exact iff_of_false (by simp [run, isFinished, stage?]) not_finished_nil
  | append_singleton actions action ih => rw [run_concat, isFinished_apply, ih, isRunning_run, finished_concat]

/-- Where names are not repeated, a stage is the one with its name. -/
theorem stage?_eq_some_iff (hn : (m.stages.map (·.name)).Nodup) {s : Stage} :
    m.stage? name = some s ↔ s ∈ m.stages ∧ s.name = name := by
  constructor
  · intro h
    exact ⟨List.mem_of_find?_eq_some h, by simpa using List.find?_some h⟩
  · rintro ⟨hs, rfl⟩
    cases hfound : m.stage? s.name with
    | none => exact absurd (List.find?_eq_none.1 hfound s hs) (by simp)
    | some t =>
      have ht : t ∈ m.stages := List.mem_of_find?_eq_some hfound
      have hname : t.name = s.name := by simpa using List.find?_some hfound
      rw [List.inj_on_of_nodup_map hn ht hs hname]

theorem stop_eq_self (hn : (m.stages.map (·.name)).Nodup) (h : ¬ m.isRunning name) (now : Nat) :
    m.stop name now = m := by
  have hstage : ∀ s ∈ m.stages, (if s.name = name then s.stop now else s) = s := by
    intro s hs
    split
    · next hname =>
      have hidle : s.running = none := by simpa [isRunning, (stage?_eq_some_iff hn).2 ⟨hs, hname⟩] using h
      rw [Stage.stop, hidle]
    · rfl
  rw [stop, List.map_congr_left hstage, List.map_id']

/-- The stages are in the order of their first starts. -/
theorem names_run (actions : List Action) : (run actions).stages.map (·.name) = firstStarts actions := by
  induction actions using List.reverseRecOn with
  | nil => rfl
  | append_singleton actions action ih =>
    rw [run_concat, firstStarts_concat, ← ih]
    cases action with
    | start stage now => exact names_startStage stage now _
    | stop stage now => exact names_stop _ stage now
    | increment | setGauge | setGeometry => rfl

theorem mem_finished_iff (hn : (m.stages.map (·.name)).Nodup) {micros : Nat} :
    (name, micros) ∈ m.finished ↔ ∃ s, m.stage? name = some s ∧ s.micros = some micros := by
  rw [finished, List.mem_filterMap]
  refine exists_congr fun s => ?_
  rw [stage?_eq_some_iff hn, and_assoc]
  refine and_congr_right fun _ => ?_
  cases s.micros <;> simp

/-- The stages that have a time are those that are listed as finished. -/
theorem mem_names_finished_iff (hn : (m.stages.map (·.name)).Nodup) :
    name ∈ m.finished.map (·.1) ↔ m.isFinished name := by
  rw [List.mem_map, isFinished]
  constructor
  · rintro ⟨⟨name, micros⟩, hm, rfl⟩
    obtain ⟨s, hs, hmicros⟩ := (mem_finished_iff hn).1 hm
    simp [hs, hmicros]
  · intro h
    cases hs : m.stage? name with
    | none => simp [hs] at h
    | some s =>
      obtain ⟨micros, hmicros⟩ := Option.isSome_iff_exists.1 (by simpa [hs] using h)
      exact ⟨(name, micros), (mem_finished_iff hn).2 ⟨s, hs, hmicros⟩, rfl⟩

/-! ## Counters and gauges -/

theorem find?_counters_apply (m : Metrics) (action : Action) (key : Text) : (m.apply action).counters.find? key =
    match action.delta? key with
    | none => m.counters.find? key
    | some delta => some ((m.counters.find? key).getD 0 + delta) := by
  cases action with
  | increment other delta =>
    show (m.counters.insert other _).find? key = _
    rw [Dictionary.find?_insert]
    by_cases h : key = other
    · subst h
      simp [Action.delta?]
    · simp [Action.delta?, h, Ne.symm h]
  | start | stop | setGauge | setGeometry => rfl

theorem find?_gauges_apply (m : Metrics) (action : Action) (key : Text) :
    (m.apply action).gauges.find? key = (action.value? key).or (m.gauges.find? key) := by
  cases action with
  | setGauge other value =>
    show (m.gauges.insert other value).find? key = _
    rw [Dictionary.find?_insert]
    by_cases h : key = other
    · simp [Action.value?, h]
    · simp [Action.value?, h, Ne.symm h]
  | start | stop | increment | setGeometry => rfl

/-- A counter is there once something has been added to it, and holds the sum of what has been added. -/
theorem counters_run (actions : List Action) (key : Text) :
    ((run actions).counters.find? key).map UInt64.toNat =
      let deltas := (actions.filterMap (Action.delta? key)).map UInt64.toNat
      if deltas = [] then none else some (deltas.sum % 2 ^ 64) := by
  induction actions using List.reverseRecOn with
  | nil => rfl
  | append_singleton actions action ih =>
    rw [run_concat, find?_counters_apply, List.filterMap_append, List.map_append]
    cases hd : action.delta? key with
    | none => simpa only [List.filterMap_cons_none hd, List.filterMap_nil, List.map_nil, List.append_nil] using ih
    | some delta =>
      rw [List.filterMap_cons_some hd, List.filterMap_nil, List.map_singleton, Option.map_some, UInt64.toNat_add]
      have hbefore : (((run actions).counters.find? key).getD 0).toNat =
          ((actions.filterMap (Action.delta? key)).map UInt64.toNat).sum % 2 ^ 64 := by
        cases hc : (run actions).counters.find? key with
        | none =>
          rw [hc] at ih
          have hnone : (actions.filterMap (Action.delta? key)).map UInt64.toNat = [] := by simpa using ih
          rw [hnone]
          rfl
        | some count =>
          rw [hc] at ih
          exact (by simpa using ih : _ ∧ _).2
      rw [hbefore, Nat.mod_add_mod, if_neg (List.append_ne_nil_of_right_ne_nil _ (List.cons_ne_nil _ _)),
        List.sum_append, List.sum_singleton]

/-- A gauge holds what it was set to last. -/
theorem gauges_run (actions : List Action) (key : Text) :
    (run actions).gauges.find? key = (actions.filterMap (Action.value? key)).getLast? := by
  induction actions using List.reverseRecOn with
  | nil => rfl
  | append_singleton actions action ih =>
    rw [run_concat, find?_gauges_apply, List.filterMap_append, ih]
    cases hv : action.value? key with
    | none => simp [hv]
    | some value => simp [hv]

/-! ## One figure and the others -/

/-- What metrics consist of. -/
inductive Figure where
  | stage (name : Text)
  | counter (key : Text)
  | gauge (key : Text)
  | geometry
deriving DecidableEq

/-- The figure that an action is about. -/
def Action.figure : Action → Figure
  | start name _ | stop name _ => .stage name
  | increment key _ => .counter key
  | setGauge key _ => .gauge key
  | setGeometry _ => .geometry

/-- A figure is the same in both. -/
def Figure.Same (m m' : Metrics) : Figure → Prop
  | stage name => m.stage? name = m'.stage? name
  | counter key => m.counters.find? key = m'.counters.find? key
  | gauge key => m.gauges.find? key = m'.gauges.find? key
  | geometry => m.geometry = m'.geometry

theorem Figure.Same.trans {m m' m'' : Metrics} {f : Figure} (h : f.Same m m') (h' : f.Same m' m'') : f.Same m m'' := by
  cases f <;> exact Eq.trans h h'

/-- An action leaves the figures alone that it is not about. -/
theorem Figure.same_apply (f : Figure) (m : Metrics) (h : action.figure ≠ f) : f.Same (m.apply action) m := by
  cases f with
  | stage name =>
    cases action with
    | start other now =>
      have hne : name ≠ other := fun heq => h (congrArg Figure.stage heq.symm)
      exact (m.stage?_start other name now).trans (if_neg hne)
    | stop other now =>
      have hne : name ≠ other := fun heq => h (congrArg Figure.stage heq.symm)
      exact (m.stage?_stop other name now).trans (if_neg hne)
    | increment | setGauge | setGeometry => rfl
  | counter key =>
    have hdelta : action.delta? key = none := by
      cases action with
      | increment other delta => exact if_neg fun heq => h (congrArg Figure.counter heq)
      | start | stop | setGauge | setGeometry => rfl
    rw [Same, find?_counters_apply, hdelta]
  | gauge key =>
    have hvalue : action.value? key = none := by
      cases action with
      | setGauge other value => exact if_neg fun heq => h (congrArg Figure.gauge heq)
      | start | stop | increment | setGeometry => rfl
    rw [Same, find?_gauges_apply, hvalue, Option.none_or]
  | geometry =>
    cases action with
    | setGeometry g => exact absurd rfl h
    | start | stop | increment | setGauge => rfl

/-- What an action makes of a figure depends on nothing but that figure. -/
theorem Figure.Same.apply {m m' : Metrics} {f : Figure} (h : f.Same m m') (action : Action) :
    f.Same (m.apply action) (m'.apply action) := by
  cases f with
  | stage name =>
    rw [Same] at h ⊢
    cases action with
    | start other now =>
      rw [Metrics.apply, Metrics.apply, stage?_start, stage?_start]
      split
      · next heq => rw [← heq, h]
      · exact h
    | stop other now =>
      rw [Metrics.apply, Metrics.apply, stage?_stop, stage?_stop]
      split
      · next heq => rw [← heq, h]
      · exact h
    | increment | setGauge | setGeometry => exact h
  | counter key => rw [Same, find?_counters_apply, find?_counters_apply, h]
  | gauge key => rw [Same, find?_gauges_apply, find?_gauges_apply, h]
  | geometry =>
    cases action with
    | setGeometry g => rfl
    | start | stop | increment | setGauge => exact h

/-- A figure is what the actions about it make of it. -/
theorem Figure.same_run_filter (f : Figure) (actions : List Action) :
    f.Same (run actions) (run (actions.filter (·.figure = f))) := by
  induction actions using List.reverseRecOn with
  | nil => cases f <;> rfl
  | append_singleton actions action ih =>
    rw [run_concat, List.filter_append]
    by_cases h : action.figure = f
    · rw [List.filter_cons_of_pos (by simpa using h), List.filter_nil, run_concat]
      exact ih.apply action
    · rw [List.filter_cons_of_neg (by simpa using h), List.filter_nil, List.append_nil]
      exact (f.same_apply (run actions) h).trans ih

/-! ## The summary -/

/-- The line of the summary for a stage. -/
def stageLine (name : Text) (micros : Nat) : Text := "  " ++ name ++ ": " ++ millis micros ++ " ms"

/-- The lines of the summary for the size of the tree, the counters and the gauges. -/
def figureLines (m : Metrics) : List Text :=
  m.geometry.toList.map (fun g => "  AST: nodes=" ++ Text.ofNat g.nodes ++ ", max_depth=" ++ Text.ofNat g.maxDepth) ++
    (m.counters.toList ++ m.gauges.toList).map fun entry => "  " ++ entry.1 ++ ": " ++ Text.ofNat entry.2.toNat

/-- The summary byte for byte: a heading, a line for each finished stage, and a line for each of the other figures. -/
theorem summaryText_eq (m : Metrics) : m.summaryText = Text.ofLines (("== Metrics ==" : Text) ::
    m.finished.map (fun stage => stageLine stage.1 stage.2) ++ m.figureLines) := by
  rw [figureLines, ← List.append_assoc]
  rfl

/-- Of the lines, those for a stage are for these stages and times, in this order. -/
inductive ShowsStages : List Text → List (Text × Nat) → Prop
  | nil : ShowsStages [] []
  | stage (name : Text) (micros : Nat) {lines : List Text} {stages : List (Text × Nat)} (h : ShowsStages lines stages) :
    ShowsStages (stageLine name micros :: lines) ((name, micros) :: stages)
  | other {line : Text} (hline : ∀ name micros, line ≠ stageLine name micros) {lines : List Text}
    {stages : List (Text × Nat)} (h : ShowsStages lines stages) : ShowsStages (line :: lines) stages

theorem millis_inj {a b : Nat} (h : millis a = millis b) : a = b := by
  have hpoint : ∀ n, '.' ∉ Text.ofNat n := fun n hm => absurd (Text.isDigit_of_mem_ofNat hm) (by decide)
  simp only [millis, List.append_assoc, List.cons_append] at h
  obtain ⟨hfront, hplaces⟩ := Text.before_inj (hpoint _) (hpoint _) h
  have hthousands : a / 1000 = b / 1000 := by rw [← Text.digitsValue_ofNat (a / 1000), hfront, Text.digitsValue_ofNat]
  have hrest : a % 1000 = b % 1000 := by
    simpa only [Text.digitsValue_zeros, Text.digitsValue_ofNat] using congrArg Text.digitsValue hplaces
  rw [← Nat.div_add_mod a 1000, hthousands, hrest, Nat.div_add_mod]

theorem notMem_millis {c : Char} (hdigit : c.isDigit = false) (hpoint : c ≠ '.') (micros : Nat) :
    c ∉ millis micros := by
  have hdigits : ∀ n, c ∉ Text.ofNat n := fun n hm => by simp [Text.isDigit_of_mem_ofNat hm] at hdigit
  have hzero : c ≠ '0' := by
    rintro rfl
    cases hdigit
  simp [millis, hdigits, hpoint, hzero]

/-- A line is for one stage and one time at most. -/
theorem stageLine_inj {name name' : Text} {micros micros' : Nat} (h : stageLine name micros = stageLine name' micros') :
    name = name' ∧ micros = micros' := by
  have hcolon : ∀ micros, ':' ∉ ' ' :: (millis micros ++ " ms".toList) := fun micros => by
    simp [notMem_millis]
  have hcut : ∀ name micros, stageLine name micros =
      ("  ".toList ++ name) ++ ':' :: (' ' :: (millis micros ++ " ms".toList)) := fun name micros => by
    simp [stageLine]
  rw [hcut, hcut] at h
  obtain ⟨hfront, hbehind⟩ := Text.behind_inj (hcolon _) (hcolon _) h
  exact ⟨List.append_cancel_left hfront, millis_inj (List.append_cancel_right (List.cons.inj hbehind).2)⟩

/-- Lines show the stages of one list only. -/
theorem ShowsStages.unique {lines : List Text} {stages stages' : List (Text × Nat)} (h : ShowsStages lines stages)
    (h' : ShowsStages lines stages') : stages = stages' := by
  induction h generalizing stages' with
  | nil =>
    cases h'
    rfl
  | stage name micros _ ih =>
    generalize hline : stageLine name micros = line at h'
    cases h' with
    | stage name' micros' h' =>
      obtain ⟨rfl, rfl⟩ := stageLine_inj hline
      rw [ih h']
    | other hother _ => exact absurd hline.symm (hother name micros)
  | other hother _ ih =>
    cases h' with
    | stage name micros _ => exact absurd rfl (hother name micros)
    | other _ h' => exact ih h'

/-- A line that ends in another character than the lines for stages do is for no stage. -/
theorem ne_stageLine {line : Text} (h : line.getLast? ≠ some 's') (name : Text) (micros : Nat) :
    line ≠ stageLine name micros := by
  rintro rfl
  exact h (List.getLast?_append_of_ne_nil _ (by decide))

theorem getLast?_append_ofNat (front : Text) (n : Nat) : (front ++ Text.ofNat n).getLast? ≠ some 's' := by
  have hne : Text.ofNat n ≠ [] := Nat.toDigits_ne_nil
  rw [List.getLast?_append_of_ne_nil _ hne, List.getLast?_eq_some_getLast hne]
  intro h
  have hdigit := Text.isDigit_of_mem_ofNat (List.getLast_mem hne)
  rw [Option.some.inj h] at hdigit
  exact absurd hdigit (by decide)

theorem showsStages_others {lines : List Text} (h : ∀ line ∈ lines, line.getLast? ≠ some 's') :
    ShowsStages lines [] := by
  induction lines with
  | nil => exact .nil
  | cons line lines ih =>
    exact .other (ne_stageLine (h line List.mem_cons_self)) (ih fun line hm => h line (.tail _ hm))

theorem showsStages_append {others : List Text} (stages : List (Text × Nat)) (h : ShowsStages others []) :
    ShowsStages (stages.map (fun s => stageLine s.1 s.2) ++ others) stages := by
  induction stages with
  | nil => exact h
  | cons s stages ih => exact .stage s.1 s.2 ih

/-- No name of a finished stage and no key has a line feed. -/
structure ShownInLines (m : Metrics) : Prop where
  stages : ∀ stage ∈ m.finished, '\n' ∉ stage.1
  figures : ∀ entry ∈ m.counters.toList ++ m.gauges.toList, '\n' ∉ entry.1

theorem ShownInLines.pieces_eq {m : Metrics} (h : m.ShownInLines) : m.summaryText.pieces =
    ("== Metrics ==" : Text) ::
      (m.finished.map (fun stage => stageLine stage.1 stage.2) ++ (m.figureLines ++ [[]])) := by
  have hdigits : ∀ n, '\n' ∉ Text.ofNat n := fun n hm => absurd (Text.isDigit_of_mem_ofNat hm) (by decide)
  rw [summaryText_eq, Text.pieces_ofLines, List.cons_append, List.cons_append, List.append_assoc]
  refine List.forall_mem_cons.2 ⟨by decide, List.forall_mem_append.2 ⟨?_, List.forall_mem_append.2 ⟨?_, ?_⟩⟩⟩
  · refine List.forall_mem_map.2 fun stage hm => ?_
    simp [stageLine, h.stages stage hm, notMem_millis]
  · refine List.forall_mem_map.2 fun g _ => ?_
    simp [hdigits]
  · refine List.forall_mem_map.2 fun entry hm => ?_
    simp [h.figures entry hm, hdigits]

/-- The lines of the summary show the finished stages, each once and in their order, and no others. -/
theorem showsStages_summaryText_iff {m : Metrics} (h : m.ShownInLines) (stages : List (Text × Nat)) :
    ShowsStages m.summaryText.pieces stages ↔ stages = m.finished := by
  have hfigures : ∀ line ∈ m.figureLines ++ [[]], line.getLast? ≠ some 's' := by
    refine List.forall_mem_append.2 ⟨List.forall_mem_append.2 ⟨?_, ?_⟩, by simp⟩
    · exact List.forall_mem_map.2 fun g _ => getLast?_append_ofNat _ _
    · exact List.forall_mem_map.2 fun entry _ => getLast?_append_ofNat _ _
  have hshows : ShowsStages m.summaryText.pieces m.finished := by
    rw [h.pieces_eq]
    exact .other (ne_stageLine (by decide)) (showsStages_append m.finished (showsStages_others hfigures))
  constructor
  · exact fun hstages => hstages.unique hshows
  · rintro rfl
    exact hshows

/-! ## Histories -/

/-- The figures are what a history makes of them. -/
structure Reflects (m : Metrics) (actions : List Action) : Prop where
  /-- The stages with a time are those that were stopped when they were running. -/
  stages : ∀ name, m.durations.contains name ↔ Finished actions name
  times : ∀ name micros, m.durations.find? name = some micros ↔ (name, micros) ∈ m.finished
  /-- The summary byte for byte. A name or a key with line feeds is written as it is, over several lines. -/
  text : m.summaryText = Text.ofLines (("== Metrics ==" : Text) ::
    m.finished.map (fun stage => "  " ++ stage.1 ++ ": " ++ millis stage.2 ++ " ms") ++ m.figureLines)
  /-- Without such names and keys, the lines of the summary show each finished stage once, in the order of the first
  starts, and no other stage. -/
  summary : m.ShownInLines → ∀ stages, ShowsStages m.summaryText.pieces stages ↔ stages = m.finished
  once : (m.finished.map (·.1)).Nodup
  order : (m.finished.map (·.1)).Sublist (firstStarts actions)
  /-- A stop of a stage that is not running changes nothing. -/
  idle : ∀ name, ¬ Running actions name → ∀ now, m.stop name now = m
  counters : ∀ key, (m.counters.find? key).map UInt64.toNat =
    let deltas := (actions.filterMap (Action.delta? key)).map UInt64.toNat
    if deltas = [] then none else some (deltas.sum % 2 ^ 64)
  gauges : ∀ key, m.gauges.find? key = (actions.filterMap (Action.value? key)).getLast?
  geometry : m.geometry = (actions.filterMap Action.geometry?).getLast?
  /-- An action about another figure leaves a figure alone, and so does a history of such actions. -/
  others : ∀ (f : Figure) (action : Action), action.figure ≠ f → f.Same (m.apply action) m
  own : ∀ f : Figure, f.Same m (run (actions.filter (·.figure = f)))

theorem contains_durations_run (actions : List Action) (name : Text) :
    (run actions).durations.contains name ↔ Finished actions name := by
  rw [Dictionary.contains, Option.isSome_iff_exists, ← isFinished_run, ← mem_names_finished_iff (nodup_stages actions),
    List.mem_map]
  constructor
  · rintro ⟨micros, h⟩
    exact ⟨_, (find?_durations actions name micros).1 h, rfl⟩
  · rintro ⟨⟨name, micros⟩, hm, rfl⟩
    exact ⟨micros, (find?_durations actions name micros).2 hm⟩

/-- Metrics are a function of their history. -/
theorem reflects_run (actions : List Action) : (run actions).Reflects actions where
  stages := contains_durations_run actions
  times := find?_durations actions
  text := summaryText_eq _
  summary := showsStages_summaryText_iff
  once := nodup_finished actions
  order := names_run actions ▸ names_finished_sublist _
  idle := fun name h => stop_eq_self (nodup_stages actions) (mt (isRunning_run actions name).1 h)
  counters := counters_run actions
  gauges := gauges_run actions
  geometry := geometry_run actions
  others := fun f _ h => f.same_apply _ h
  own := fun f => f.same_run_filter actions

/-- A stop without a start counts for nothing, and a second start begins anew. -/
example : (run [.stop "Lex" 0, .start "Lex" 1, .start "Parse" 2, .stop "Parse" 5, .start "Lex" 7,
    .stop "Lex" 9]).finished = [("Lex".toList, 2), ("Parse".toList, 3)] := by
  rfl

end Metrics
end FrontEnd
