import Trun.Program.Partition
import Trun.Scheduler.IndexRuns
import Trun.Worker.Notebook

/-!
# The steps that the summary counts

`_partition_steps` sorts the steps of `_add_step_history` into sets, each with
a filter of its own, and the summary adds the sizes of six of them up to the
number in `Scheduled N steps`.
-/

namespace Trun

variable {α : Type} [DecidableEq α]

/-- `set_steps`.  The last six sets are filled by other functions. -/
structure SetSteps (α : Type) where
  completed : Finset α
  alreadyDone : Finset α
  everFailed : Finset α
  failed : Finset α
  schedulingError : Finset α
  stillPendingExt : Finset α
  stillPendingNotExt : Finset α
  runByOtherWorker : Finset α := ∅
  upstreamFailure : Finset α := ∅
  upstreamMissingDependency : Finset α := ∅
  upstreamRunByOtherWorker : Finset α := ∅
  upstreamSchedulingError : Finset α := ∅
  notRun : Finset α := ∅
  deriving DecidableEq

def extTruth (ext : Option Bool) : Bool := ext.getD false

/-- `{step for (step, status, ext) in step_history if status == ... and ...}`. -/
def stepsWith (stepHistory : List (Note α)) (status : Status) (keep : α → Option Bool → Bool) :
    Finset α :=
  ((stepHistory.filter fun note => note.2.1 == status && keep note.1 note.2.2).map
    Prod.fst).toFinset

def partitionSteps (stepHistory : List (Note α)) : SetSteps α :=
  let pendingSteps := stepsWith stepHistory .pending fun _ _ => true
  let completed := stepsWith stepHistory .done fun step _ => decide (step ∈ pendingSteps)
  let alreadyDone := stepsWith stepHistory .done fun step _ =>
    decide (step ∉ pendingSteps ∧ step ∉ completed)
  let everFailed := stepsWith stepHistory .failed fun _ _ => true
  let failed := everFailed \ completed
  let schedulingError := stepsWith stepHistory .unknown fun _ _ => true
  let stillPendingExt := stepsWith stepHistory .pending fun step ext =>
    decide (step ∉ everFailed ∧ step ∉ completed) && !extTruth ext
  let stillPendingNotExt := stepsWith stepHistory .pending fun step ext =>
    decide (step ∉ everFailed ∧ step ∉ completed) && extTruth ext
  { completed, alreadyDone, everFailed, failed, schedulingError, stillPendingExt,
    stillPendingNotExt }

/-- The sets whose sizes `_summary_format` adds up. -/
def SetSteps.summands (sets : SetSteps α) : List (Finset α) :=
  [sets.alreadyDone, sets.completed, sets.failed, sets.schedulingError, sets.stillPendingExt,
    sets.stillPendingNotExt]

def SetSteps.numAllSteps (sets : SetSteps α) : ℕ := (sets.summands.map Finset.card).sum

def stepsOf (stepHistory : List (Note α)) : Finset α := (stepHistory.map Prod.fst).toFinset

/-- Every step of the history is in exactly one of the sets, so that their sizes add up to the
number of steps. -/
structure CountsOnce (stepHistory : List (Note α)) : Prop where
  partitions : Partitions (partitionSteps stepHistory).summands (stepsOf stepHistory)
  number : (partitionSteps stepHistory).numAllSteps = (stepsOf stepHistory).card

/-! ## Where a step is counted -/

/-- The status is among what was reported about a step. -/
def HasStatus (reported : Status → Option Bool → Prop) (status : Status) : Prop :=
  ∃ runnable, reported status runnable

/-- A pending status is among what was reported about a step, with this truth value. -/
def HasPending (reported : Status → Option Bool → Prop) (truth : Bool) : Prop :=
  ∃ ext, reported .pending ext ∧ extTruth ext = truth

/-- What was reported about a step gives it one place in the summary. -/
@[mk_iff]
structure OnePlace (reported : Status → Option Bool → Prop) : Prop where
  /-- A step that is only ever disabled is not counted. -/
  counted : HasStatus reported .pending ∨ HasStatus reported .done ∨
    HasStatus reported .failed ∨ HasStatus reported .unknown
  /-- A step with a scheduling error was never scheduled without one. -/
  unscheduled : HasStatus reported .unknown → ¬HasStatus reported .pending ∧
    ¬HasStatus reported .done ∧ ¬HasStatus reported .failed
  /-- A step that failed and was done counts as completed only if it was pending. -/
  recovered : HasStatus reported .failed → HasStatus reported .done → HasStatus reported .pending
  /-- A step that was pending both ways came to an end. -/
  ended : HasPending reported true → HasPending reported false →
    HasStatus reported .done ∨ HasStatus reported .failed

theorem hasStatus_pending {reported : Status → Option Bool → Prop} :
    HasStatus reported .pending ↔ HasPending reported true ∨ HasPending reported false := by
  constructor
  · rintro ⟨ext, hext⟩
    cases htruth : extTruth ext with
    | true => exact .inl ⟨ext, hext, htruth⟩
    | false => exact .inr ⟨ext, hext, htruth⟩
  · rintro (⟨ext, hext, -⟩ | ⟨ext, hext, -⟩) <;> exact ⟨ext, hext⟩

section History

variable {stepHistory : List (Note α)} {step : α}

/-- What the history says about a step. -/
def saidOf (stepHistory : List (Note α)) (step : α) (status : Status) (ext : Option Bool) : Prop :=
  (step, status, ext) ∈ stepHistory

theorem mem_stepsWith {status : Status} {keep : α → Option Bool → Bool} :
    step ∈ stepsWith stepHistory status keep ↔
      ∃ ext, saidOf stepHistory step status ext ∧ keep step ext = true := by
  simp only [stepsWith, List.mem_toFinset, List.mem_map, List.mem_filter]
  constructor
  · rintro ⟨⟨found, other, ext⟩, ⟨hmem, htest⟩, rfl⟩
    obtain ⟨hstatus, hkeep⟩ := Bool.and_eq_true_iff.mp htest
    exact ⟨ext, eq_of_beq hstatus ▸ hmem, hkeep⟩
  · rintro ⟨ext, hmem, hkeep⟩
    exact ⟨(step, status, ext), ⟨hmem, by simp [hkeep]⟩, rfl⟩

/-- A filter that does not look at `ext`. -/
theorem mem_stepsWith_step {status : Status} {keep : α → Bool} :
    (step ∈ stepsWith stepHistory status fun step _ => keep step) ↔
      HasStatus (saidOf stepHistory step) status ∧ keep step = true := by
  rw [mem_stepsWith, exists_and_right, HasStatus]

theorem mem_completed : step ∈ (partitionSteps stepHistory).completed ↔
    HasStatus (saidOf stepHistory step) .done ∧ HasStatus (saidOf stepHistory step) .pending := by
  simp only [partitionSteps, mem_stepsWith_step, decide_eq_true_eq, and_true]

theorem mem_everFailed : step ∈ (partitionSteps stepHistory).everFailed ↔
    HasStatus (saidOf stepHistory step) .failed := by
  simp only [partitionSteps, mem_stepsWith_step, and_true]

theorem mem_alreadyDone : step ∈ (partitionSteps stepHistory).alreadyDone ↔
    HasStatus (saidOf stepHistory step) .done ∧ ¬HasStatus (saidOf stepHistory step) .pending := by
  simp only [partitionSteps, mem_stepsWith_step, decide_eq_true_eq, and_true]
  tauto

theorem mem_failed : step ∈ (partitionSteps stepHistory).failed ↔
    HasStatus (saidOf stepHistory step) .failed ∧
      ¬(HasStatus (saidOf stepHistory step) .done ∧
        HasStatus (saidOf stepHistory step) .pending) := by
  rw [← mem_completed, ← mem_everFailed]
  exact Finset.mem_sdiff

theorem mem_schedulingError : step ∈ (partitionSteps stepHistory).schedulingError ↔
    HasStatus (saidOf stepHistory step) .unknown := by
  simp only [partitionSteps, mem_stepsWith_step, and_true]

/-- The two sets of pending steps differ in their test of `ext`. -/
theorem mem_stillPending (test : Option Bool → Bool) :
    (step ∈ stepsWith stepHistory .pending fun step ext =>
      decide (step ∉ (partitionSteps stepHistory).everFailed ∧
        step ∉ (partitionSteps stepHistory).completed) && test ext) ↔
      (∃ ext, saidOf stepHistory step .pending ext ∧ test ext = true) ∧
        ¬HasStatus (saidOf stepHistory step) .failed ∧
        ¬HasStatus (saidOf stepHistory step) .done := by
  simp only [mem_stepsWith, Bool.and_eq_true, decide_eq_true_eq, mem_everFailed, mem_completed]
  constructor
  · rintro ⟨ext, hext, ⟨hfailed, hcompleted⟩, htest⟩
    exact ⟨⟨ext, hext, htest⟩, hfailed, fun hdone => hcompleted ⟨hdone, ext, hext⟩⟩
  · rintro ⟨⟨ext, hext, htest⟩, hfailed, hdone⟩
    exact ⟨ext, hext, ⟨hfailed, fun hcompleted => hdone hcompleted.1⟩, htest⟩

theorem mem_stillPendingNotExt : step ∈ (partitionSteps stepHistory).stillPendingNotExt ↔
    HasPending (saidOf stepHistory step) true ∧ ¬HasStatus (saidOf stepHistory step) .failed ∧
      ¬HasStatus (saidOf stepHistory step) .done :=
  mem_stillPending extTruth

theorem mem_stillPendingExt : step ∈ (partitionSteps stepHistory).stillPendingExt ↔
    HasPending (saidOf stepHistory step) false ∧ ¬HasStatus (saidOf stepHistory step) .failed ∧
      ¬HasStatus (saidOf stepHistory step) .done := by
  simp only [HasPending, ← Bool.not_eq_true']
  exact mem_stillPending fun ext => !extTruth ext

theorem mem_stepsOf : step ∈ stepsOf stepHistory ↔
    ∃ status ext, saidOf stepHistory step status ext := by
  simp [stepsOf, saidOf]

/-- A step has one place among the summands where what was reported about it fits. -/
theorem countP_summands_eq_one :
    (partitionSteps stepHistory).summands.countP (step ∈ ·) = 1 ↔
      OnePlace (saidOf stepHistory step) := by
  classical
  simp only [SetSteps.summands, List.countP_cons, List.countP_nil, mem_alreadyDone, mem_completed,
    mem_failed, mem_schedulingError, mem_stillPendingExt, mem_stillPendingNotExt,
    decide_eq_true_eq, hasStatus_pending, onePlace_iff]
  -- Both sides are read off what the history says about the step.
  by_cases hdone : HasStatus (saidOf stepHistory step) .done <;>
  by_cases hfailed : HasStatus (saidOf stepHistory step) .failed <;>
  by_cases hunknown : HasStatus (saidOf stepHistory step) .unknown <;>
  by_cases htrue : HasPending (saidOf stepHistory step) true <;>
  by_cases hfalse : HasPending (saidOf stepHistory step) false <;>
  simp [hdone, hfailed, hunknown, htrue, hfalse]

/-- No other step is counted. -/
theorem countP_summands_eq_zero (hstep : step ∉ stepsOf stepHistory) :
    (partitionSteps stepHistory).summands.countP (step ∈ ·) = 0 := by
  have hstatus : ∀ status, ¬HasStatus (saidOf stepHistory step) status :=
    fun status ⟨ext, hext⟩ => hstep (mem_stepsOf.mpr ⟨status, ext, hext⟩)
  have hpending : ∀ truth, ¬HasPending (saidOf stepHistory step) truth :=
    fun truth ⟨ext, hext, _⟩ => hstep (mem_stepsOf.mpr ⟨_, ext, hext⟩)
  simp [SetSteps.summands, mem_alreadyDone, mem_completed, mem_failed, mem_schedulingError,
    mem_stillPendingExt, mem_stillPendingNotExt, hstatus, hpending]

theorem countsOnce_iff_onePlace :
    CountsOnce stepHistory ↔
      ∀ step ∈ stepsOf stepHistory, OnePlace (saidOf stepHistory step) := by
  have hpartitions : CountsOnce stepHistory ↔
      Partitions (partitionSteps stepHistory).summands (stepsOf stepHistory) :=
    ⟨fun h => h.partitions, fun h => ⟨h, h.sum_card⟩⟩
  rw [hpartitions, partitions_iff]
  constructor
  · intro hcount step hstep
    rw [← countP_summands_eq_one, hcount step, if_pos hstep]
  · intro hplace step
    by_cases hstep : step ∈ stepsOf stepHistory
    · rw [if_pos hstep, countP_summands_eq_one]
      exact hplace step hstep
    · rw [if_neg hstep]
      exact countP_summands_eq_zero hstep

end History

namespace Notebook

omit [DecidableEq α] in
theorem saidOf_run (events : List (NotebookEvent α)) (step : α) :
    saidOf (runAll after {} events).addStepHistory step =
      fun status runnable => Reported events (step, status, runnable) := by
  funext status runnable
  exact propext mem_addStepHistory_iff

/-- The summary of a run counts every step once where the reports about each step give it one
place. -/
theorem countsOnce_iff (events : List (NotebookEvent α)) :
    CountsOnce (runAll after {} events).addStepHistory ↔
      ∀ step, (∃ status runnable, Reported events (step, status, runnable)) →
        OnePlace fun status runnable => Reported events (step, status, runnable) := by
  simp only [countsOnce_iff_onePlace, mem_stepsOf, saidOf_run]

end Notebook

/-- The calls on a worker come with reports, and its summary counts every step once where these
give each step one place. -/
theorem Setting.afterCalls_countsOnce {σ : Type} (setting : Setting σ) (fuel : ℕ)
    (scheduler : Scheduler) (world : σ) (calls : List WorkerCall) :
    ∃ events, (setting.afterCalls fuel (.start scheduler world) calls).Keeps
        (runAll Notebook.after {} events) ∧
      (CountsOnce (setting.afterCalls fuel (.start scheduler world) calls).addStepHistory ↔
        ∀ step, (∃ status runnable, Notebook.Reported events (step, status, runnable)) →
          OnePlace fun status runnable => Notebook.Reported events (step, status, runnable)) := by
  obtain ⟨events, hkeeps⟩ := setting.afterCalls_keeps fuel scheduler world calls
  refine ⟨events, hkeeps, ?_⟩
  rw [← hkeeps.noted]
  simp only [countsOnce_iff_onePlace, mem_stepsOf, Notebook.saidOf_run]

/-! ## A step that waits for what it asked for at run time -/

/-- `A` asks for `B` when it runs, and `B` fails. -/
def askingCode : StepCode Unit where
  family := id
  module _ := none
  params _ := ∅
  priority _ := 0
  resources _ := ∅
  batchable _ := false
  batchParamNames _ := []
  maxBatchSize _ := none
  retryPolicy _ := {}
  acceptsMessages _ := false
  disabled _ := false
  external _ := false
  complete _ _ := .answers false
  requires _ _ := .ok (.list [])
  run id _ :=
    if id = "A" then .yields () { requirements := .item "B" } fun _ => .returns ()
    else .raises () (.user "no input")
  output _ := .item ""
  targetExists _ _ := .ok false
  onSuccess _ := .ok "null"
  onFailure _ _ := "failed"
  load _ family _ := .ok family

def askingSetting : Setting Unit where
  code := askingCode
  worker := firstWorker
  env := defaultEnv
  clock now := { now := now }

/-- The history of a worker that adds `A` and runs. -/
def askingHistory : List (Note StepId) :=
  (askingSetting.afterCalls 10 (.start (.initial ∅) ()) [.add "A", .run]).addStepHistory

theorem askingHistory_eq : askingHistory =
    [("A", .pending, some true), ("B", .pending, some true), ("A", .pending, none),
      ("B", .failed, none)] := by
  decide +kernel

/-- `A` is pending both ways, so that the summary counts three steps. -/
theorem asking_step_counted_twice : ¬CountsOnce askingHistory := by
  intro hcounts
  have hnumber : (partitionSteps askingHistory).numAllSteps = 3 := by
    rw [askingHistory_eq]
    decide
  have hcard : (stepsOf askingHistory).card = 2 := by
    rw [askingHistory_eq]
    decide
  have heq := hcounts.number
  rw [hnumber, hcard] at heq
  cases heq

end Trun
