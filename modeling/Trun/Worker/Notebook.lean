import Trun.Program.Runs
import Trun.Worker.Session

/-!
# What a worker notes for the summary

`_add_step_history`, and what decides which steps `_add_step` puts there.  The
events may come in any order, so that the runs of a notebook cover every worker,
whatever its graph does and however many processes it has.  The steps are the
objects that `_scheduled_steps` holds.
-/

namespace Trun

open Program

/-- An entry of `_add_step_history`: the step, its status, and `runnable`. -/
abbrev Note (α : Type) := α × Status × Option Bool

structure Notebook (α : Type) where
  scheduledSteps : Dict StepId α := ∅
  batchRunningSteps : Dict StepId (List α) := ∅
  addStepHistory : List (Note α) := []

inductive NotebookEvent (α : Type) where
  /-- `_scheduled_steps[step_id] = step`. -/
  | schedule (id : StepId) (step : α)
  /-- `_batch_running_steps[step_id] = batch_steps`. -/
  | startBatch (id : StepId) (batchStepIds : List StepId)
  /-- A call of `_add_step`. -/
  | addStep (id : StepId) (status : Status) (runnable : Option Bool)
  deriving DecidableEq

namespace Notebook

variable {α : Type}

/-- What a call of `_add_step` puts into the history. -/
def notes (notebook : Notebook α) (id : StepId) (status : Status) (runnable : Option Bool) :
    List (Note α) :=
  ((notebook.scheduledSteps.get? id).map fun step => (step, status, runnable)).toList ++
    (notebook.batchRunningSteps.getD id []).map fun step => (step, status, some true)

def after (notebook : Notebook α) : NotebookEvent α → Notebook α
  | .schedule id step =>
      { notebook with scheduledSteps := notebook.scheduledSteps.set id step }
  | .startBatch id batchStepIds =>
      { notebook with
        batchRunningSteps := notebook.batchRunningSteps.set id
          (batchStepIds.filterMap notebook.scheduledSteps.get?) }
  | .addStep id status runnable =>
      { notebook with
        addStepHistory := notebook.addStepHistory ++ notebook.notes id status runnable
        batchRunningSteps := notebook.batchRunningSteps.erase id }

def Reports (notebook : Notebook α) (note : Note α) : NotebookEvent α → Prop
  | .addStep id status runnable => note ∈ notebook.notes id status runnable
  | _ => False

def Reported (events : List (NotebookEvent α)) (note : Note α) : Prop :=
  ∃ front event, front ++ [event] <+: events ∧ (runAll after {} front).Reports note event

theorem mem_addStepHistory_after {notebook : Notebook α} {event : NotebookEvent α}
    {note : Note α} :
    note ∈ (notebook.after event).addStepHistory ↔
      note ∈ notebook.addStepHistory ∨ notebook.Reports note event := by
  cases event with
  | schedule id step => simp [after, Reports]
  | startBatch id batchStepIds => simp [after, Reports]
  | addStep id status runnable => simp only [after, Reports, List.mem_append]

theorem reported_append {events : List (NotebookEvent α)} {event : NotebookEvent α}
    {note : Note α} :
    Reported (events ++ [event]) note ↔
      Reported events note ∨ (runAll after {} events).Reports note event := by
  constructor
  · rintro ⟨front, last, hprefix, hreports⟩
    rcases List.prefix_concat_iff.mp hprefix with heq | hprefix
    · obtain ⟨rfl, hlast⟩ := List.append_inj' heq rfl
      obtain rfl := List.singleton_injective hlast
      exact .inr hreports
    · exact .inl ⟨front, last, hprefix, hreports⟩
  · rintro (⟨front, last, hprefix, hreports⟩ | hreports)
    · exact ⟨front, last, hprefix.trans (List.prefix_append ..), hreports⟩
    · exact ⟨events, event, List.prefix_rfl, hreports⟩

/-- The history holds what the run reported, and nothing else. -/
theorem mem_addStepHistory_iff {events : List (NotebookEvent α)} {note : Note α} :
    note ∈ (runAll after {} events).addStepHistory ↔ Reported events note := by
  induction events using List.reverseRecOn with
  | nil => simp [Reported]
  | append_singleton events event ih =>
      rw [runAll_append, runAll_cons, runAll_nil, mem_addStepHistory_after, ih, reported_append]

/-! ## Scheduled steps -/

structure KnowsOnly (property : α → Prop) (notebook : Notebook α) : Prop where
  scheduled : ∀ {id step}, notebook.scheduledSteps.get? id = some step → property step
  batched : ∀ id, ∀ step ∈ notebook.batchRunningSteps.getD id [], property step
  noted : ∀ note ∈ notebook.addStepHistory, property note.1

theorem KnowsOnly.notes {property : α → Prop} {notebook : Notebook α}
    (hknows : notebook.KnowsOnly property) {id : StepId} {status : Status}
    {runnable : Option Bool} {note : Note α} (hnote : note ∈ notebook.notes id status runnable) :
    property note.1 := by
  rcases List.mem_append.mp hnote with hown | hmember
  · obtain ⟨step, hstep, rfl⟩ := Option.map_eq_some_iff.mp (Option.mem_toList.mp hown)
    exact hknows.scheduled hstep
  · obtain ⟨step, hstep, rfl⟩ := List.mem_map.mp hmember
    exact hknows.batched id step hstep

theorem KnowsOnly.after {property : α → Prop} {notebook : Notebook α}
    (hknows : notebook.KnowsOnly property) {event : NotebookEvent α}
    (hevent : ∀ id step, event = .schedule id step → property step) :
    (notebook.after event).KnowsOnly property := by
  cases event with
  | schedule id step =>
      refine ⟨fun {other found} hfound => ?_, hknows.batched, hknows.noted⟩
      simp only [Notebook.after, Dict.get?_set] at hfound
      split at hfound
      · exact Option.some.inj hfound ▸ hevent id step rfl
      · exact hknows.scheduled hfound
  | startBatch id batchStepIds =>
      refine ⟨hknows.scheduled, fun other step hstep => ?_, hknows.noted⟩
      simp only [Notebook.after, Dict.getD_set] at hstep
      split at hstep
      · obtain ⟨member, -, hmember⟩ := List.mem_filterMap.mp hstep
        exact hknows.scheduled hmember
      · exact hknows.batched other step hstep
  | addStep id status runnable =>
      refine ⟨hknows.scheduled, fun other step hstep => ?_, fun note hnote => ?_⟩
      · simp only [Notebook.after, Dict.getD, Dict.get?_erase] at hstep
        split at hstep
        · cases hstep
        · exact hknows.batched other step hstep
      · rcases List.mem_append.mp hnote with hold | hnew
        · exact hknows.noted note hold
        · exact hknows.notes hnew

/-- Every step of the history was scheduled. -/
theorem Reported.scheduled {events : List (NotebookEvent α)} {note : Note α}
    (hreported : Reported events note) :
    ∃ id, NotebookEvent.schedule id note.1 ∈ events := by
  have hknows : (runAll Notebook.after {} events).KnowsOnly
      fun step => ∃ id, NotebookEvent.schedule id step ∈ events := by
    apply runAll_invariant _ (fun _ event => True ∧ event ∈ events) _
      (fun _ _ hknows hmem => hknows.after fun id step heq => ⟨id, heq ▸ hmem.2⟩)
    · exact ⟨by simp, by simp, by simp⟩
    · exact (along_of_forall (fun _ _ => trivial) events).and_forall fun _ hmem => hmem
  exact hknows.noted note (mem_addStepHistory_iff.mpr hreported)

end Notebook

/-! ## A worker with one process

Whatever a worker does, its notebook makes a run. -/

variable {σ : Type}

/-- The notebook of a worker that knows its steps by their ids. -/
structure Session.Keeps (w : Session σ) (notebook : Notebook StepId) : Prop where
  scheduled : ∀ id, notebook.scheduledSteps.get? id =
    if id ∈ w.scheduledSteps then some id else none
  batched : notebook.batchRunningSteps = w.batchRunningSteps
  noted : notebook.addStepHistory = w.addStepHistory

/-- The notebook gets from the first state of the worker to the last one. -/
def notebookRuns : Contract Fault (Session σ) where
  inv _ := True
  rel w w' := ∀ notebook, w.Keeps notebook →
    ∃ events, w'.Keeps (runAll Notebook.after notebook events)
  allows _ := True
  refl _ notebook hkeeps := ⟨[], hkeeps⟩
  trans := by
    intro first middle last hfirst hlast notebook hkeeps
    obtain ⟨front, hmiddle⟩ := hfirst notebook hkeeps
    obtain ⟨back, hback⟩ := hlast _ hmiddle
    exact ⟨front ++ back, runAll_append front back ▸ hback⟩

namespace Setting

variable (setting : Setting σ)

theorem notebookRuns_throw {α : Type} (fault : Fault) :
    Honours notebookRuns (throw fault : WorkerM σ α) :=
  fun _ _ => Meets.throw trivial trivial

theorem notebookRuns_of_events {change : Session σ → Session σ}
    (events : Session σ → List (NotebookEvent StepId))
    (hchange : ∀ w notebook, w.Keeps notebook →
      (change w).Keeps (runAll Notebook.after notebook (events w))) :
    Honours notebookRuns (modify change : WorkerM σ PUnit) :=
  fun w _ => Meets.modify trivial fun notebook hkeeps => ⟨events w, hchange w notebook hkeeps⟩

/-- Most assignments do not touch the notebook. -/
theorem notebookRuns_modify {change : Session σ → Session σ}
    (hscheduled : ∀ w, (change w).scheduledSteps = w.scheduledSteps)
    (hbatched : ∀ w, (change w).batchRunningSteps = w.batchRunningSteps)
    (hnoted : ∀ w, (change w).addStepHistory = w.addStepHistory) :
    Honours notebookRuns (modify change : WorkerM σ PUnit) := by
  apply notebookRuns_of_events fun _ => []
  rintro w notebook ⟨hsteps, hbatches, hnotes⟩
  refine ⟨fun id => ?_, hbatches.trans (hbatched w).symm, hnotes.trans (hnoted w).symm⟩
  rw [hscheduled w]
  exact hsteps id

theorem notebookRuns_modify_bind {α : Type} {change : Session σ → Session σ}
    {next : PUnit → WorkerM σ α} (hscheduled : ∀ w, (change w).scheduledSteps = w.scheduledSteps)
    (hbatched : ∀ w, (change w).batchRunningSteps = w.batchRunningSteps)
    (hnoted : ∀ w, (change w).addStepHistory = w.addStepHistory)
    (hnext : ∀ value, Honours notebookRuns (next value)) :
    Honours notebookRuns (modify change >>= next) :=
  (notebookRuns_modify hscheduled hbatched hnoted).bind hnext

theorem notebookRuns_schedule (id : StepId) :
    Honours notebookRuns (modify fun w =>
      { w with scheduledSteps := w.scheduledSteps.add id } : WorkerM σ PUnit) := by
  apply notebookRuns_of_events fun _ => [.schedule id id]
  intro w notebook hkeeps
  refine ⟨fun other => ?_, hkeeps.batched, hkeeps.noted⟩
  change (notebook.scheduledSteps.set id id).get? other = _
  rw [Dict.get?_set, hkeeps.scheduled]
  by_cases hother : other = id
  · subst hother
    simp
  · simp [hother]

theorem filterMap_scheduled {w : Session σ} {notebook : Notebook StepId}
    (hkeeps : w.Keeps notebook) (ids : List StepId) :
    ids.filterMap notebook.scheduledSteps.get? = ids.filter (· ∈ w.scheduledSteps) := by
  have hguard : notebook.scheduledSteps.get? = Option.guard (· ∈ w.scheduledSteps) := by
    funext id
    rw [hkeeps.scheduled, Option.guard]
    simp
  rw [hguard, List.filterMap_eq_filter]

theorem notebookRuns_noteBatch (id : StepId) (work : Work) :
    Honours notebookRuns (noteBatch id work : WorkerM σ Unit) := by
  cases work with
  | batch batchId ids family module params =>
      apply notebookRuns_of_events fun _ => [.startBatch id ids]
      intro w notebook hkeeps
      refine ⟨hkeeps.scheduled, ?_, hkeeps.noted⟩
      change notebook.batchRunningSteps.set id _ = _
      rw [filterMap_scheduled hkeeps, hkeeps.batched]
  | nothing => exact Honours.pure _
  | single stepId family module params => exact Honours.pure _

theorem notebookRuns_noteStep (id : StepId) (status : Status) (runnable : Option Bool) :
    Honours notebookRuns (modify fun w => w.noteStep id status runnable : WorkerM σ PUnit) := by
  apply notebookRuns_of_events fun _ => [.addStep id status runnable]
  intro w notebook hkeeps
  refine ⟨hkeeps.scheduled, ?_, ?_⟩
  · change notebook.batchRunningSteps.erase id = w.batchRunningSteps.erase id
    rw [hkeeps.batched]
  · change notebook.addStepHistory ++ notebook.notes id status runnable =
      w.addStepHistory ++ _ ++ _
    rw [Notebook.notes, hkeeps.scheduled, hkeeps.batched, hkeeps.noted, List.append_assoc]
    by_cases hid : id ∈ w.scheduledSteps
    · simp [hid]
    · simp [hid]

theorem notebookRuns_ask (request : Request) : Honours notebookRuns (setting.ask request) := by
  unfold ask
  refine Honours.get.bind fun w => ?_
  dsimp only
  refine notebookRuns_modify_bind (fun _ => rfl) (fun _ => rfl) (fun _ => rfl) fun _ => ?_
  split
  · exact Honours.pure _
  · exact notebookRuns_throw _

theorem notebookRuns_addStep (args : AddStepArgs) (runnable : Option Bool) :
    Honours notebookRuns (setting.addStep args runnable) := by
  unfold addStep
  refine (notebookRuns_noteStep _ _ _).bind fun _ => ?_
  exact (setting.notebookRuns_ask _).bind fun _ => Honours.pure _

theorem notebookRuns_handleStepLoadError (error : LoadError) (ids : List StepId) :
    Honours notebookRuns (setting.handleStepLoadError error ids) :=
  Honours.forM fun _ _ => setting.notebookRuns_addStep _ _

/-! ### `add` -/

theorem notebookRuns_addStepBatcher (id : StepId) :
    Honours notebookRuns (setting.addStepBatcher id) := by
  unfold addStepBatcher
  refine Honours.get.bind fun w => ?_
  simp only
  split
  · exact Honours.pure _
  · split
    · exact notebookRuns_modify (fun _ => rfl) (fun _ => rfl) fun _ => rfl
    · refine (setting.notebookRuns_ask _).bind fun _ => ?_
      exact notebookRuns_modify (fun _ => rfl) (fun _ => rfl) fun _ => rfl

theorem notebookRuns_planBroken : Honours notebookRuns (planBroken : WorkerM σ StepPlan) :=
  notebookRuns_modify_bind (fun _ => rfl) (fun _ => rfl) (fun _ => rfl) fun _ => Honours.pure _

theorem notebookRuns_planStep (id : StepId) (isComplete : Completion) :
    Honours notebookRuns (setting.planStep id isComplete) := by
  unfold planStep
  split
  · exact Honours.pure _
  · refine Honours.get.bind fun w => ?_
    split
    · exact Honours.pure _
    · split
      · exact notebookRuns_planBroken
      · exact (setting.notebookRuns_addStepBatcher id).bind fun _ => Honours.pure _
  · exact notebookRuns_planBroken

theorem notebookRuns_makePlan (id : StepId) (isComplete : Completion) :
    Honours notebookRuns (setting.makePlan id isComplete) := by
  unfold makePlan
  refine Honours.get.bind fun w => ?_
  split
  · exact Honours.pure _
  · exact (setting.notebookRuns_planStep id isComplete).bind fun _ => Honours.pure _

theorem notebookRuns_scheduleStep (id : StepId) (plan : StepPlan) :
    Honours notebookRuns (setting.scheduleStep id plan) :=
  (notebookRuns_schedule id).bind fun _ => setting.notebookRuns_addStep _ _

theorem notebookRuns_checkComplete (id : StepId) :
    Honours notebookRuns (setting.checkComplete id) := by
  unfold checkComplete
  refine Honours.get.bind fun w => ?_
  exact notebookRuns_modify_bind (fun _ => rfl) (fun _ => rfl) (fun _ => rfl) fun _ =>
    Honours.pure _

theorem notebookRuns_discover (deps : List StepId)
    (found : List (StepId × Completion) × OrderedSet StepId) :
    Honours notebookRuns (setting.discover deps found) := by
  unfold discover
  induction deps generalizing found with
  | nil => exact Honours.pure _
  | cons dep rest ih =>
      rw [List.foldlM_cons]
      refine Honours.bind ?_ fun found' => ih found'
      split
      · exact Honours.pure _
      · exact (setting.notebookRuns_checkComplete dep).bind fun _ => Honours.pure _

theorem notebookRuns_explore (fuel : ℕ)
    (found : List (StepId × Completion) × OrderedSet StepId) :
    Honours notebookRuns (setting.explore fuel found) := by
  induction fuel generalizing found with
  | zero =>
      obtain ⟨_ | _, seen⟩ := found
      · exact Honours.pure _
      · exact notebookRuns_throw _
  | succ fuel ih =>
      obtain ⟨_ | ⟨⟨id, isComplete⟩, queue⟩, seen⟩ := found
      · exact Honours.pure _
      · refine (setting.notebookRuns_makePlan id isComplete).bind fun plan => ?_
        refine (setting.notebookRuns_discover _ _).bind fun found => ?_
        exact (setting.notebookRuns_scheduleStep id plan).bind fun _ => ih _

theorem notebookRuns_add (fuel : ℕ) (id : StepId) :
    Honours notebookRuns (setting.add fuel id) := by
  unfold add
  refine notebookRuns_modify_bind (fun _ => rfl) (fun _ => rfl) (fun _ => rfl) fun _ => ?_
  refine (setting.notebookRuns_checkComplete id).bind fun item => Honours.bind ?_ fun _ =>
    Honours.get.bind fun _ => Honours.pure _
  apply Honours.tryCatch (setting.notebookRuns_explore _ _)
  intro fault
  exact notebookRuns_modify_bind (fun _ => rfl) (fun _ => rfl) (fun _ => rfl) fun _ =>
    notebookRuns_throw fault

/-! ### `run` -/

theorem notebookRuns_getWorkStepId (work : Work) :
    Honours notebookRuns (setting.getWorkStepId work) := by
  cases work with
  | nothing => exact Honours.pure _
  | single id family module params => exact Honours.pure _
  | batch batchId ids family module params =>
      unfold getWorkStepId
      simp only
      split
      · refine (setting.notebookRuns_handleStepLoadError _ _).bind fun _ => ?_
        exact notebookRuns_modify_bind (fun _ => rfl) (fun _ => rfl) (fun _ => rfl) fun _ =>
          Honours.pure _
      · exact (setting.notebookRuns_ask _).bind fun _ => Honours.pure _

theorem notebookRuns_loadStep (work : Work) (id : StepId) :
    Honours notebookRuns (setting.loadStep work id) := by
  unfold loadStep
  refine Honours.get.bind fun w => ?_
  split
  · exact Honours.pure _
  · split
    · exact (notebookRuns_schedule id).bind fun _ => Honours.pure _
    · refine (setting.notebookRuns_handleStepLoadError _ _).bind fun _ => ?_
      exact notebookRuns_modify_bind (fun _ => rfl) (fun _ => rfl) (fun _ => rfl) fun _ =>
        Honours.pure _
    · exact notebookRuns_throw _

theorem notebookRuns_takeWork (reply : Reply) :
    Honours notebookRuns (setting.takeWork reply) := by
  unfold takeWork
  refine (setting.notebookRuns_getWorkStepId _).bind fun handed => ?_
  refine notebookRuns_modify_bind (fun _ => rfl) (fun _ => rfl) (fun _ => rfl) fun _ => ?_
  cases handed
  case' none => refine (Honours.pure none).bind fun stepId => ?_
  case' some id => refine (setting.notebookRuns_loadStep reply.work id).bind fun stepId => ?_
  all_goals
    cases stepId with
    | none => exact Honours.pure _
    | some id => exact (notebookRuns_noteBatch id reply.work).bind fun _ => Honours.pure _

theorem notebookRuns_getWork : Honours notebookRuns setting.getWork := by
  unfold getWork
  refine Honours.get.bind fun w => ?_
  split
  · exact Honours.pure _
  · refine (setting.notebookRuns_ask _).bind fun response => ?_
    split
    · exact setting.notebookRuns_takeWork _
    · exact Honours.pure _

theorem notebookRuns_runStep (id : StepId) : Honours notebookRuns (setting.runStep id) := by
  unfold runStep
  refine Honours.get.bind fun w => ?_
  split
  · exact Honours.pure _
  · split
    · exact notebookRuns_modify (fun _ => rfl) (fun _ => rfl) fun _ => rfl
    · exact notebookRuns_throw _

/-- Counting missing dependencies leaves the notebook alone. -/
theorem countMissing_keeps {w : Session σ} {notebook : Notebook StepId}
    (hkeeps : w.Keeps notebook) (missing : List String) :
    (setting.countMissing w missing).1.Keeps notebook := by
  unfold countMissing
  generalize true = again
  induction missing generalizing w again with
  | nil => exact hkeeps
  | cons entry missing ih =>
      rw [List.foldl_cons]
      apply ih
      exact ⟨hkeeps.scheduled, hkeeps.batched, hkeeps.noted⟩

theorem notebookRuns_reschedule (fuel : ℕ) (id : StepId) (missing : List String) :
    Honours notebookRuns (setting.reschedule fuel id missing) := by
  unfold reschedule
  split
  · exact Honours.pure _
  · intro w _
    refine Meets.get_bind (Meets.bind ?_ fun _ w' _ _ => ?_)
    · exact Meets.modify trivial fun notebook hkeeps =>
        ⟨[], setting.countMissing_keeps hkeeps missing⟩
    · split
      · exact ((setting.notebookRuns_add fuel id).bind fun _ => Honours.pure _) w' trivial
      · exact Meets.pure _ trivial

/-- `_handle_next_step` from the new dependencies on. -/
theorem notebookRuns_report (fuel : ℕ) (result : StepResult) (newDeps : List StepId) :
    Honours notebookRuns (do
      newDeps.forM fun id => do
        let _ ← setting.add fuel id
      setting.addStep (setting.reportArgs result newDeps) none
      modify fun w => { w with runningSteps := w.runningSteps.removeAll [result.stepId] }
      setting.reschedule fuel result.stepId result.missing
      modify fun w => { w with
        runSucceeded := w.runSucceeded && (result.status == .done || !newDeps.isEmpty) }) := by
  refine (Honours.forM fun id _ => ?_).bind fun _ => ?_
  · exact (setting.notebookRuns_add fuel id).bind fun _ => Honours.pure _
  · refine (setting.notebookRuns_addStep _ _).bind fun _ => ?_
    refine notebookRuns_modify_bind (fun _ => rfl) (fun _ => rfl) (fun _ => rfl) fun _ => ?_
    refine (setting.notebookRuns_reschedule _ _ _).bind fun _ => ?_
    exact notebookRuns_modify (fun _ => rfl) (fun _ => rfl) fun _ => rfl

theorem notebookRuns_handleResult (fuel : ℕ) (result : StepResult) :
    Honours notebookRuns (setting.handleResult fuel result) := by
  unfold handleResult
  split
  · exact (notebookRuns_throw _).bind fun newDeps => setting.notebookRuns_report fuel result newDeps
  · exact (Honours.pure _).bind fun newDeps => setting.notebookRuns_report fuel result newDeps

theorem notebookRuns_handleQueue (fuel : ℕ) (queue : List StepResult) :
    Honours notebookRuns (setting.handleQueue fuel queue) := by
  induction queue with
  | nil => exact Honours.pure _
  | cons result rest ih =>
      unfold handleQueue
      refine Honours.get.bind fun w => ?_
      refine notebookRuns_modify_bind (fun _ => rfl) (fun _ => rfl) (fun _ => rfl) fun _ => ?_
      split
      · exact notebookRuns_throw _
      · split
        · exact setting.notebookRuns_handleResult fuel result
        · exact ih

theorem notebookRuns_handleNextStep (fuel : ℕ) :
    Honours notebookRuns (setting.handleNextStep fuel) := by
  unfold handleNextStep
  refine notebookRuns_modify_bind (fun _ => rfl) (fun _ => rfl) (fun _ => rfl) fun _ => ?_
  exact Honours.get.bind fun w => setting.notebookRuns_handleQueue fuel w.stepResultQueue

/-- A round of the main loop, once the worker has asked for work. -/
theorem notebookRuns_afterGetWork {fuel : ℕ} (hrest : Honours notebookRuns (setting.mainLoop fuel))
    (response : GetWorkResponse) :
    Honours notebookRuns (match response.stepId with
      | some id => do
          setting.runStep id
          setting.mainLoop fuel
      | none => do
          let now := (setting.clock (← get).requests.length).now
          modify fun w => { w with idleSince := w.idleSince <|> some now }
          let w ← get
          if setting.keepAlive w now response then setting.mainLoop fuel else pure ()) := by
  split
  · exact (setting.notebookRuns_runStep _).bind fun _ => hrest
  · refine Honours.get.bind fun w => ?_
    refine notebookRuns_modify_bind (fun _ => rfl) (fun _ => rfl) (fun _ => rfl) fun _ => ?_
    refine Honours.get.bind fun w => ?_
    split
    · exact hrest
    · exact Honours.pure _

theorem notebookRuns_mainLoop (fuel : ℕ) : Honours notebookRuns (setting.mainLoop fuel) := by
  induction fuel with
  | zero => exact notebookRuns_throw _
  | succ fuel ih =>
      unfold mainLoop
      refine Honours.get.bind fun w => ?_
      split
      · exact (setting.notebookRuns_handleNextStep fuel).bind fun _ => ih
      · refine setting.notebookRuns_getWork.bind fun response => ?_
        have hnext := setting.notebookRuns_afterGetWork ih response
        by_cases hdisabled : response.workerState = .disabled
        · rw [if_pos hdisabled]
          exact notebookRuns_modify_bind (fun _ => rfl) (fun _ => rfl) (fun _ => rfl) fun _ => hnext
        · rw [if_neg hdisabled]
          exact hnext

theorem notebookRuns_shutDown (fuel : ℕ) : Honours notebookRuns (setting.shutDown fuel) := by
  induction fuel with
  | zero => exact notebookRuns_throw _
  | succ fuel ih =>
      unfold shutDown
      refine Honours.get.bind fun w => ?_
      split
      · exact Honours.pure _
      · exact (setting.notebookRuns_handleNextStep fuel).bind fun _ => ih

theorem notebookRuns_run (fuel : ℕ) : Honours notebookRuns (setting.run fuel) := by
  unfold run
  refine notebookRuns_modify_bind (fun _ => rfl) (fun _ => rfl) (fun _ => rfl) fun _ => ?_
  refine (setting.notebookRuns_ask _).bind fun _ => ?_
  refine (setting.notebookRuns_mainLoop fuel).bind fun _ => ?_
  refine (setting.notebookRuns_shutDown fuel).bind fun _ => ?_
  exact Honours.get.bind fun _ => Honours.pure _

inductive WorkerCall where
  | add (id : StepId)
  | run
  deriving DecidableEq

/-- The call, with so many rounds for its loops. -/
def call (fuel : ℕ) : WorkerCall → WorkerM σ Bool
  | .add id => setting.add fuel id
  | .run => setting.run fuel

/-- The worker after some calls, also where one of them raised. -/
def afterCalls (fuel : ℕ) (w : Session σ) (calls : List WorkerCall) : Session σ :=
  runAll (fun w call => (setting.call fuel call).final w) w calls

/-- The history that the calls leave is that of a run of the notebook. -/
theorem afterCalls_keeps (fuel : ℕ) (scheduler : Scheduler) (world : σ)
    (calls : List WorkerCall) :
    ∃ events, (setting.afterCalls fuel (.start scheduler world) calls).Keeps
      (runAll Notebook.after {} events) := by
  have hstart : (Session.start scheduler world).Keeps {} := ⟨fun _ => rfl, rfl, rfl⟩
  have hcalls : ∀ w : Session σ, notebookRuns.rel w (setting.afterCalls fuel w calls) := by
    induction calls with
    | nil => exact notebookRuns.refl
    | cons call calls ih =>
        intro w
        have hcall : Honours notebookRuns (setting.call fuel call) := by
          cases call with
          | add id => exact setting.notebookRuns_add fuel id
          | run => exact setting.notebookRuns_run fuel
        exact notebookRuns.trans (hcall w trivial).2.1 (ih _)
  exact hcalls _ _ hstart

end Setting

end Trun
