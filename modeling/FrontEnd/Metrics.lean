import FrontEnd.Dictionary

/-!
# Metrics

* `Metrics` : the stages of a run in the order of their first starts, the size of the tree, counters and gauges;
* `Metrics.start`, `Metrics.stop` : the clock readings at which a stage is entered and left; the time of a stage that
  runs several times adds up, and a stop of a stage that is not running counts for nothing;
* `Metrics.increment`, `Metrics.setGauge`, `Metrics.setGeometry` : the figures of a run; counters wrap around at
  `2 ^ 64`;
* `Metrics.durations`, `Metrics.hints` : the finished stages by name, and what the figures suggest.

Times are whole microseconds.
-/

namespace FrontEnd

/-- A stage of a run: when it was entered, if it is running, and its time, once it has been left. -/
structure Stage where
  name : Text
  running : Option Nat := none
  micros : Option Nat := none
deriving DecidableEq, Inhabited

/-- The size of a tree: its nodes and its greatest depth. -/
structure Geometry where
  nodes : Nat
  maxDepth : Nat
deriving DecidableEq, Inhabited

/-- The figures of a run. -/
structure Metrics where
  stages : List Stage := []
  geometry : Option Geometry := none
  counters : Dictionary UInt64 := ∅
  gauges : Dictionary UInt64 := ∅
deriving Inhabited

/-- The stage when it is entered at `now`. -/
def Stage.start (s : Stage) (now : Nat) : Stage := { s with running := some now }

/-- The stage when it is left at `now`; one that is not running stays as it is. -/
def Stage.stop (s : Stage) (now : Nat) : Stage :=
  match s.running with
  | none => s
  | some started => { s with running := none, micros := some (s.micros.getD 0 + (now - started)) }

namespace Metrics

/-- The stages with the one named `name` entered at `now`, a new one behind the others. -/
def startStage (name : Text) (now : Nat) : List Stage → List Stage
  | [] => [{ name, running := some now }]
  | s :: stages => if s.name = name then s.start now :: stages else s :: startStage name now stages

/-- Enters a stage. -/
def start (m : Metrics) (name : Text) (now : Nat) : Metrics := { m with stages := startStage name now m.stages }

/-- Leaves a stage. -/
def stop (m : Metrics) (name : Text) (now : Nat) : Metrics :=
  { m with stages := m.stages.map fun s => if s.name = name then s.stop now else s }

/-- Adds to a counter. -/
def increment (m : Metrics) (key : Text) (delta : UInt64) : Metrics :=
  { m with counters := m.counters.insert key ((m.counters.find? key).getD 0 + delta) }

/-- Sets a gauge. -/
def setGauge (m : Metrics) (key : Text) (value : UInt64) : Metrics :=
  { m with gauges := m.gauges.insert key value }

/-- Sets the size of the tree. -/
def setGeometry (m : Metrics) (geometry : Geometry) : Metrics := { m with geometry := some geometry }

/-- The finished stages with their times, in the order of the first starts. -/
def finished (m : Metrics) : List (Text × Nat) := m.stages.filterMap fun s => s.micros.map (s.name, ·)

/-- The times of the finished stages by name. -/
def durations (m : Metrics) : Dictionary Nat := m.finished.foldl (fun d (name, micros) => d.insert name micros) ∅

/-- A tree deeper than this is worth a hint. -/
def deepTree : Nat := 64

/-- What the figures suggest: that there are type errors, that there are no functions, that the tree is deep. -/
def hints (m : Metrics) : List Text :=
  let candidates : List (Text × Bool) :=
    [("type_errors_present", m.gauges.find? "check.ok" = some 0),
      ("no_functions", (m.counters.find? "parse.functions").getD 0 = 0),
      ("deep_ast", m.geometry.any (deepTree < ·.maxDepth))]
  (candidates.filter (·.2)).map (·.1)

end Metrics
end FrontEnd
