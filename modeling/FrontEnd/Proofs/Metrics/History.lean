import FrontEnd.Metrics
import FrontEnd.Proofs.Dictionary

/-!
# Histories of metrics

* `Metrics.Action` : what can be done with metrics, with the clock reading where one is taken;
  `Metrics.apply`, `Metrics.run` : doing it, and doing one thing after the other from the start;
* `Metrics.nodup_stages` : no two stages have the same name;
* `Metrics.geometry_run` : the size of the tree is the one set last;
* `Metrics.find?_durations` : the times by name are those of the finished stages.
-/

namespace FrontEnd

theorem Stage.name_stop (s : Stage) (now : Nat) : (s.stop now).name = s.name := by
  unfold stop
  cases s.running <;> rfl

namespace Metrics

/-- What can be done with metrics. -/
inductive Action where
  | start (stage : Text) (now : Nat)
  | stop (stage : Text) (now : Nat)
  | increment (key : Text) (delta : UInt64)
  | setGauge (key : Text) (value : UInt64)
  | setGeometry (geometry : Geometry)

/-- The size of the tree that an action sets. -/
def Action.geometry? : Action → Option Geometry
  | setGeometry g => some g
  | _ => none

/-- The metrics after an action. -/
def apply (m : Metrics) : Action → Metrics
  | .start stage now => m.start stage now
  | .stop stage now => m.stop stage now
  | .increment key delta => m.increment key delta
  | .setGauge key value => m.setGauge key value
  | .setGeometry g => m.setGeometry g

/-- The metrics after a sequence of actions. -/
def run (actions : List Action) : Metrics := actions.foldl apply {}

variable {m : Metrics}

/-- What holds at the start and after every action from where it holds, holds after every sequence of actions. -/
theorem run_induction {P : Metrics → Prop} (hstart : P {}) (hstep : ∀ m action, P m → P (m.apply action))
    (actions : List Action) : P (run actions) := by
  have h : ∀ m, P m → P (actions.foldl apply m) := by
    induction actions with
    | nil => exact fun m hm => hm
    | cons action actions ih => exact fun m hm => ih _ (hstep m action hm)
  exact h {} hstart

/-! ## Stages -/

theorem names_startStage (name : Text) (now : Nat) (stages : List Stage) :
    (startStage name now stages).map (·.name) =
      if name ∈ stages.map (·.name) then stages.map (·.name) else stages.map (·.name) ++ [name] := by
  induction stages with
  | nil => rfl
  | cons s stages ih =>
    rw [startStage]
    split
    · next h => simp [h, Stage.start]
    · next h =>
      have hne : name ≠ s.name := fun heq => h heq.symm
      simp only [List.map_cons, ih, List.mem_cons, hne, false_or]
      split <;> rfl

theorem names_stop (m : Metrics) (name : Text) (now : Nat) :
    (m.stop name now).stages.map (·.name) = m.stages.map (·.name) := by
  rw [stop, List.map_map]
  refine List.map_congr_left fun s _ => ?_
  rw [Function.comp]
  split
  · exact s.name_stop now
  · rfl

theorem nodup_apply (h : (m.stages.map (·.name)).Nodup) (action : Action) :
    ((m.apply action).stages.map (·.name)).Nodup := by
  cases action with
  | start stage now =>
    rw [apply, start, names_startStage]
    split
    · exact h
    · next hnew => exact List.nodup_append.2 ⟨h, by simp, by simpa using hnew⟩
  | stop stage now =>
    rw [apply, names_stop]
    exact h
  | increment | setGauge | setGeometry => exact h

/-- No two stages have the same name. -/
theorem nodup_stages (actions : List Action) : ((run actions).stages.map (·.name)).Nodup :=
  run_induction (P := fun m => (m.stages.map (·.name)).Nodup) .nil (fun _ action h => nodup_apply h action) actions

/-- The finished stages are some of the stages, in their order. -/
theorem names_finished_sublist (m : Metrics) : (m.finished.map (·.1)).Sublist (m.stages.map (·.name)) := by
  rw [finished, List.map_filterMap]
  generalize m.stages = stages
  induction stages with
  | nil => exact .slnil
  | cons s stages ih =>
    cases hs : s.micros with
    | none => simpa [hs] using ih.cons s.name
    | some micros => simpa [hs] using ih.cons_cons s.name

/-- Each stage is finished once at most. -/
theorem nodup_finished (actions : List Action) : ((run actions).finished.map (·.1)).Nodup :=
  (nodup_stages actions).sublist (names_finished_sublist _)

theorem find?_foldl_insert {α : Type} {entries : List (Text × α)} (h : (entries.map (·.1)).Nodup) (d : Dictionary α)
    (key : Text) (value : α) :
    (entries.foldl (fun d (key, value) => d.insert key value) d).find? key = some value ↔
      (key, value) ∈ entries ∨ key ∉ entries.map (·.1) ∧ d.find? key = some value := by
  induction entries generalizing d with
  | nil => simp
  | cons entry entries ih =>
    obtain ⟨k, v⟩ := entry
    obtain ⟨hnew, hrest⟩ := List.nodup_cons.1 h
    rw [List.foldl_cons, ih hrest, Dictionary.find?_insert]
    by_cases hk : key = k
    · subst hk
      have hnone : ∀ value, (key, value) ∉ entries := fun value hm => hnew (List.mem_map.2 ⟨_, hm, rfl⟩)
      simp [hnone, hnew, eq_comm]
    · simp [hk]

/-- The times by name are those of the finished stages. -/
theorem find?_durations (actions : List Action) (name : Text) (micros : Nat) :
    (run actions).durations.find? name = some micros ↔ (name, micros) ∈ (run actions).finished := by
  rw [durations, find?_foldl_insert (nodup_finished actions)]
  simp [EmptyCollection.emptyCollection]

/-! ## The size of the tree -/

/-- The size of the tree is the one set last. -/
theorem geometry_run (actions : List Action) :
    (run actions).geometry = (actions.filterMap Action.geometry?).getLast? := by
  have h : ∀ m : Metrics, (actions.foldl apply m).geometry =
      ((actions.filterMap Action.geometry?).getLast?).or m.geometry := by
    induction actions with
    | nil => exact fun m => rfl
    | cons action actions ih =>
      intro m
      rw [List.foldl_cons, ih, List.filterMap_cons]
      cases action with
      | setGeometry g =>
        have hfirst : (setGeometry m g).geometry = some g := rfl
        rw [apply, hfirst, Action.geometry?, List.getLast?_cons]
        cases (actions.filterMap Action.geometry?).getLast? <;> rfl
      | start | stop | increment | setGauge => rfl
  exact (h {}).trans Option.or_none

end Metrics
end FrontEnd
