import Trun.Scheduler.Serving

/-!
# The status index over runs

A worker keeps references to the steps it scheduled, and `inactivate_steps` does
not remove them.  As long as `get_work` looks at no such stale reference, the
index by status is exact in every reachable state and no `pop` of it fails.
-/

namespace Trun

open Scheduler

namespace Env

variable (env : Env)

/-- The index is exact after the event, and neither of the two `pop`s raised. -/
def KeepsIndex (s : Scheduler) (event : Event) : Prop :=
  (env.after s event).Indexed ∧ env.raised s event ≠ some .statusBucket ∧
    env.raised s event ≠ some .stepTable

/-- Every state of such a run is sound. -/
theorem along_sound {resources : Resources} {events : List Event}
    (hhands : Along env.after (HandsOutFiledSteps env) (.initial resources) events) :
    Along env.after (fun s event => Lasting Sound s ∧ HandsOutFiledSteps env s event)
      (.initial resources) events :=
  along_invariant env.after _ (Lasting Sound)
    (fun _ _ hlasting hevent => (Sound.after hlasting hevent).1) (initial_sound resources) hhands

theorem run_sound {resources : Resources} {events : List Event}
    (hhands : Along env.after (HandsOutFiledSteps env) (.initial resources) events) :
    Lasting Sound (env.run (.initial resources) events) :=
  runAll_invariant env.after _ (Lasting Sound)
    (fun _ _ hlasting hevent => (Sound.after hlasting hevent).1) (initial_sound resources) hhands

/-- In every run that hands out no removed step the index by status is exact. -/
theorem index_exact_along {resources : Resources} {events : List Event}
    (hhands : Along env.after (HandsOutFiledSteps env) (.initial resources) events) :
    (Scheduler.initial resources).Indexed ∧
      Along env.after env.KeepsIndex (.initial resources) events := by
  refine ⟨(initial_sound resources).1.index, (env.along_sound hhands).mono ?_⟩
  rintro s event ⟨hlasting, hevent⟩
  obtain ⟨hafter, hallowed⟩ := Sound.after hlasting hevent
  refine ⟨hafter.1.index, fun h => ?_, fun h => ?_⟩
  · exact (hallowed _ ((env.raised_eq_some ..).mp h)).1 rfl
  · exact (hallowed _ ((env.raised_eq_some ..).mp h)).2 rfl

end Env

/-! ## A worker that outlives its step -/

/-- A scheduler with its default configuration. -/
def defaultEnv : Env := { md5Hex := id }

def firstWorker : WorkerId := ⟨"w1", by decide⟩
def secondWorker : WorkerId := ⟨"w2", by decide⟩

def requestAt (now : Time) (request : Request) : Event := ⟨{ now := now }, request⟩

def schedules (worker : WorkerId) (id : StepId) : Request :=
  .addStep { worker := worker, stepId := id }

/-- An assistant schedules a step that nobody else wants and stays alive until it
is pruned; then another worker schedules three more. -/
def outlivingRun : List Event :=
  [ requestAt 1 (.addStep { worker := firstWorker, stepId := "a", assistant := true }),
    requestAt 2 .prune,
    requestAt 600 (.addStep
      { worker := firstWorker, stepId := "z", status := .done, assistant := true }),
    requestAt 602 .prune,
    requestAt 603 (schedules secondWorker "b"),
    requestAt 603 (schedules secondWorker "c"),
    requestAt 603 (schedules secondWorker "d") ]

/-- The assistant's next `get_work`. -/
def outlivingRequest : Event :=
  requestAt 604 (.getWork { worker := firstWorker, currentSteps := some [] })

/-- The pruned step is chosen, and `set_status` does not find it in its bucket. -/
theorem outlived_step_raises :
    Timely (outlivingRun ++ [outlivingRequest]) ∧
      ¬defaultEnv.KeepsIndex (defaultEnv.run (.initial ∅) outlivingRun) outlivingRequest := by
  refine ⟨by decide +kernel, fun h => h.2.1 ?_⟩
  decide +kernel

/-- Two workers schedule, work and are pruned without such a reference. -/
def cleanRun : List Event :=
  [ requestAt 1 (schedules firstWorker "a"),
    requestAt 2 (schedules secondWorker "b"),
    requestAt 3 (.getWork { worker := firstWorker, currentSteps := some [] }),
    requestAt 4 (.addStep { worker := firstWorker, stepId := "a", status := .done }),
    requestAt 5 .dump,
    requestAt 6 .load,
    requestAt 900 .prune ]

theorem clean_run_keeps_index :
    (Scheduler.initial ∅).Indexed ∧
      Along defaultEnv.after defaultEnv.KeepsIndex (.initial ∅) cleanRun :=
  defaultEnv.index_exact_along (by decide +kernel)

end Trun
