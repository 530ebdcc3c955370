import Trun.Scheduler.Types

/-!
# `SimpleStepState`

The step table, its index by status, and the operations on them.  Every change
of a status goes through `setStatus`; the other operations write single fields
of step objects or add and remove rows of the tables.

Metrics, log lines and mails are left out: none of them changes a step.
-/

namespace Trun

/-! ## Steps -/

namespace Step

/-- `Step.__init__` with the arguments that vary between its callers. -/
def make (config : Config) (now : Time) (id : StepId) (status : Status)
    (deps : OrderedSet StepId) (priority : Int) : Step where
  id := id
  status := status
  deps := deps
  time := now
  updated := now
  priority := priority
  retryPolicy := config.retryPolicy

def addFailure (step : Step) (now : Time) : Step :=
  { step with
    firstFailureTime :=
      match step.firstFailureTime with
      | none => some now
      | some first => if first = 0 then some now else some first
    failures := step.failures ++ [now]
    marks := step.marks ++ [.failed now step.retryPolicy] }

/-- `num_failures` drops the failures that left the window. -/
def forgetOldFailures (step : Step) (now : Time) : Step :=
  { step with
    failures := step.failures.dropWhile
      fun failure => failure < now - step.retryPolicy.disableWindow }

def numFailures (step : Step) (now : Time) : ℕ :=
  (step.forgetOldFailures now).failures.length

/-- The first test of `has_excessive_failures`. -/
def failsSinceTooLong (step : Step) (now : Time) : Bool :=
  match step.firstFailureTime with
  | none => false
  | some first => decide (first + step.retryPolicy.disableHardTimeout ≤ now)

def hasExcessiveFailures (step : Step) (now : Time) : Bool :=
  step.failsSinceTooLong now ||
    decide (step.retryPolicy.retryCount ≤ (step.numFailures now : Int))

def clearFailures (step : Step) : Step :=
  { step with failures := [], firstFailureTime := none, marks := step.marks ++ [.cleared] }

/-- `re_enable` without a configuration. -/
def reEnable (step : Step) : Step :=
  ({ step with schedulerDisableTime := none } : Step).clearFailures

/-- The two tests with which `set_status` returns at once: a running step is not
disabled, and a scheduler disable yields to `DONE` and `DISABLED` only. -/
def ignores (step : Step) (newStatus : Status) : Bool :=
  (newStatus == .disabled && step.status.isRunning) ||
    (step.status == .disabled && newStatus != .done &&
      step.schedulerDisableTime.isSome && newStatus != .disabled)

/-- `step.batch_id is not None and not step.batchable`: the combined step of a
batch, which exists only for one run. -/
def removeOnFailure (step : Step) : Bool := step.batchId.isSome && !step.batchable

/-- Whether `set_status` passes the new status on to the members of a batch. -/
def releasesBatch (step : Step) (newStatus : Status) : Bool :=
  step.status == .running && step.batchId.isSome && newStatus != .running

/-- The body of `_remove_workers_from_steps`. -/
def withoutWorkers (step : Step) (workers : List WorkerId) (removeStakeholders : Bool) :
    Step :=
  { step with
    stakeholders :=
      if removeStakeholders then step.stakeholders.filter (· ∉ workers)
      else step.stakeholders
    workers := step.workers.removeAll workers }

/-- `step.batch_id = None`. -/
def withoutBatch (step : Step) : Step := { step with batchId := none }

/-- `set_status` re-enables a disabled step that is reported as `DONE`. -/
def revive (step : Step) (newStatus : Status) : Step :=
  if step.status = .disabled ∧ newStatus = .done then step.reEnable else step

def countsFailure (step : Step) (newStatus : Status) : Bool :=
  newStatus == .failed && step.status != .disabled

/-- The failure accounting of `set_status`, with the status that results. -/
def account (step : Step) (now : Time) (newStatus : Status) : Step × Status :=
  if newStatus = .failed ∧ step.status ≠ .disabled then
    let failing := step.addFailure now
    let counted :=
      if failing.failsSinceTooLong now then failing else failing.forgetOldFailures now
    if failing.hasExcessiveFailures now then
      ({ counted with schedulerDisableTime := some now }, .disabled)
    else (counted, .failed)
  else if newStatus = .disabled then
    ({ step with schedulerDisableTime := none }, .disabled)
  else (step, newStatus)

/-- The time stamps `set_status` leaves on a step that ends up `FAILED`. -/
def stampFailure (step : Step) (config : Config) (now : Time) (combined : Bool) : Step :=
  let retried := { step with retry := some (now + config.retryDelay) }
  if combined then { retried with remove := some ⟨now, true⟩ } else retried

/-- The entry in the history at the end of a `set_status` that counted a failure. -/
def markEnd (step : Step) (counted : Bool) : Step :=
  if counted then
    { step with
      marks := step.marks ++ [.ended step.status step.schedulerDisableTime step.retry] }
  else step

/-- `may_prune`: a stamp of zero counts as none. -/
def mayPrune (step : Step) (now : Time) : Bool :=
  match step.remove with
  | none => false
  | some removal => removal.due != 0 && decide (removal.due ≤ now)

end Step

namespace Scheduler

/-! ## Tables -/

def stepAt (s : Scheduler) (ref : Ref) : Step := s.heap.getD ref default

def updateStep (s : Scheduler) (ref : Ref) (change : Step → Step) : Scheduler :=
  { s with heap := s.heap.modify ref default change }

/-- `_status_steps[status]`. -/
def bucket (s : Scheduler) (status : Status) : Dict StepId Ref :=
  s.statusSteps.getD status ∅

def activeSteps (s : Scheduler) : List Ref := s.steps.values

def activeStepsByStatus (s : Scheduler) (statuses : List Status) : List Ref :=
  statuses.flatMap fun status => (s.bucket status).values

def batchRunningSteps (s : Scheduler) (batchId : BatchId) : List Ref :=
  (s.activeStepsByStatus [.batchRunning]).filter
    fun ref => (s.stepAt ref).batchId = some batchId

def getStep (s : Scheduler) (id : StepId) : Option Ref := s.steps.get? id

/-- `_status_steps[step.status][step.id] = step`. -/
def fileStep (s : Scheduler) (ref : Ref) : Scheduler :=
  { s with
    statusSteps := s.statusSteps.modify (s.stepAt ref).status ∅
      fun bucket => bucket.set (s.stepAt ref).id ref }

/-- A new `Step` object that no table refers to yet. -/
def allocate (s : Scheduler) (step : Step) : Scheduler :=
  { s with heap := s.heap.set s.nextRef step, nextRef := s.nextRef + 1 }

/-- `_steps.setdefault(step.id, step)`. -/
def insertStep (s : Scheduler) (step : Step) : Scheduler :=
  match s.getStep step.id with
  | some _ => s
  | none => { s.allocate step with steps := s.steps.set step.id s.nextRef }

/-- `get_step(step.id, setdefault=step)`: the state afterwards; the object is
then the one in the step table. -/
def setdefaultStep (s : Scheduler) (step : Step) : Scheduler :=
  let inserted := s.insertStep step
  match inserted.getStep step.id with
  | some ref => inserted.fileStep ref
  | none => inserted

section Reads

variable (s : Scheduler) (ref other : Ref) (change : Step → Step)

@[simp] theorem stepAt_updateStep :
    (s.updateStep ref change).stepAt other =
      if other = ref then change (s.stepAt other) else s.stepAt other := by
  simp [stepAt, updateStep]

@[simp] theorem bucket_updateStep (status : Status) :
    (s.updateStep ref change).bucket status = s.bucket status := rfl

@[simp] theorem steps_updateStep : (s.updateStep ref change).steps = s.steps := rfl

@[simp] theorem getStep_updateStep (id : StepId) :
    (s.updateStep ref change).getStep id = s.getStep id := rfl

@[simp] theorem activeWorkers_updateStep :
    (s.updateStep ref change).activeWorkers = s.activeWorkers := rfl

@[simp] theorem nextRef_updateStep : (s.updateStep ref change).nextRef = s.nextRef := rfl

@[simp] theorem stepAt_fileStep : (s.fileStep ref).stepAt other = s.stepAt other := rfl

@[simp] theorem steps_fileStep : (s.fileStep ref).steps = s.steps := rfl

@[simp] theorem bucket_fileStep (status : Status) :
    (s.fileStep ref).bucket status =
      if status = (s.stepAt ref).status then (s.bucket status).set (s.stepAt ref).id ref
      else s.bucket status := by
  simp only [bucket, fileStep, Dict.getD_modify]

theorem mem_activeSteps : ref ∈ s.activeSteps ↔ ∃ id, s.getStep id = some ref :=
  s.steps.mem_values_iff ref

theorem mem_activeStepsByStatus (statuses : List Status) :
    ref ∈ s.activeStepsByStatus statuses ↔
      ∃ status ∈ statuses, ∃ id, (s.bucket status).get? id = some ref := by
  simp only [activeStepsByStatus, List.mem_flatMap, Dict.mem_values_iff]

theorem mem_batchRunningSteps (batchId : BatchId) :
    ref ∈ s.batchRunningSteps batchId ↔
      (∃ id, (s.bucket .batchRunning).get? id = some ref) ∧
        (s.stepAt ref).batchId = some batchId := by
  simp [batchRunningSteps, mem_activeStepsByStatus]

end Reads

/-! ## Workers -/

/-- `get_worker(worker_id)`: the state afterwards. -/
def ensureWorker (s : Scheduler) (now : Time) (id : WorkerId) : Scheduler :=
  match s.activeWorkers.get? id with
  | some _ => s
  | none =>
    { s with activeWorkers := s.activeWorkers.set id { id := id, lastActive := now } }

/-- The worker under an id that is known to be present. -/
def workerAt (s : Scheduler) (id : WorkerId) : Worker :=
  s.activeWorkers.getD id { id := id, lastActive := 0 }

def updateWorkerAt (s : Scheduler) (id : WorkerId) (change : Worker → Worker) : Scheduler :=
  { s with activeWorkers := s.activeWorkers.set id (change (s.workerAt id)) }

@[simp] theorem workerAt_updateStep (s : Scheduler) (ref : Ref) (change : Step → Step)
    (worker : WorkerId) :
    (s.updateStep ref change).workerAt worker = s.workerAt worker := rfl

/-- `get_assistants`, as ids. -/
def assistants (s : Scheduler) : List WorkerId :=
  (s.activeWorkers.values.filter Worker.assistant).map Worker.id

def removeWorkersFromSteps (s : Scheduler) (workers : List WorkerId)
    (removeStakeholders : Bool) : Scheduler :=
  s.activeSteps.foldl
    (fun current ref => current.updateStep ref
      fun step => step.withoutWorkers workers removeStakeholders) s

def inactivateWorkers (s : Scheduler) (workers : List WorkerId) : Scheduler :=
  { s with activeWorkers := workers.foldl Dict.erase s.activeWorkers }
    |>.removeWorkersFromSteps workers true

/-- `disable_workers` for one worker. -/
def disableWorker (s : Scheduler) (now : Time) (id : WorkerId) : Scheduler :=
  ((s.removeWorkersFromSteps [id] false).ensureWorker now id).updateWorkerAt id
    fun worker => { worker with disabled := true, steps := ∅ }

/-! ## Persistence -/

def getState (s : Scheduler) : SavedState where
  heap := s.heap
  nextRef := s.nextRef
  steps := s.steps
  activeWorkers := s.activeWorkers
  stepBatchers := s.stepBatchers

def dump (s : Scheduler) : Scheduler := { s with saved := some s.getState }

def setState (s : Scheduler) (saved : SavedState) : Scheduler :=
  { s with
    heap := saved.heap, nextRef := saved.nextRef, steps := saved.steps
    activeWorkers := saved.activeWorkers, stepBatchers := saved.stepBatchers }

/-- `load`: the saved tables, with the status index built anew. -/
def load (s : Scheduler) : Scheduler :=
  match s.saved with
  | none => s
  | some saved =>
    let restored := { s.setState saved with statusSteps := ∅ }
    restored.activeSteps.foldl fileStep restored

end Scheduler

/-! ## Changing a status -/

/-- `_status_steps[old].pop(id)`, `_status_steps[new][id] = step` and the field
writes that go with it. -/
def Scheduler.refile (s : Scheduler) (now : Time) (ref : Ref) (newStatus : Status) :
    Scheduler :=
  let step := s.stepAt ref
  let popped := { s with
    statusSteps := s.statusSteps.modify step.status ∅ (·.erase step.id) }
  { popped with
    statusSteps := popped.statusSteps.modify newStatus ∅ (·.set step.id ref) }
    |>.updateStep ref fun step => { step with status := newStatus, updated := now }

/-- The move between buckets in `set_status`. -/
def moveStatus (now : Time) (ref : Ref) (newStatus : Status) : SchedulerM Unit := do
  let s ← get
  let step := s.stepAt ref
  if newStatus = step.status then pure ()
  else if (s.bucket step.status).contains step.id then
    modify fun s => s.refile now ref newStatus
  else throw .statusBucket

/-- `set_status` passes the new status on to the members of a running batch. -/
def releaseBatch (recur : Ref → Status → Option Config → SchedulerM Unit)
    (ref : Ref) (newStatus : Status) (config : Option Config) : SchedulerM Unit := do
  let s ← get
  let step := s.stepAt ref
  match step.releasesBatch newStatus, step.batchId with
  | true, some batchId => do
    (s.batchRunningSteps batchId).forM fun member => do
      recur member newStatus config
      modify fun s => s.updateStep member Step.withoutBatch
    modify fun s => s.updateStep ref Step.withoutBatch
  | _, _ => pure ()

/-- The time stamps on a step that ended up `FAILED`. -/
def stampFailure (now : Time) (ref : Ref) (newStatus : Status) (combined : Bool)
    (config : Option Config) : SchedulerM Unit :=
  match newStatus, config with
  | .failed, some config =>
      modify fun s => s.updateStep ref fun step => step.stampFailure config now combined
  | .failed, none => throw .missingAttribute
  | _, _ => pure ()

/-- `set_status` past its early returns. -/
def applyStatus (recur : Ref → Status → Option Config → SchedulerM Unit)
    (now : Time) (ref : Ref) (newStatus : Status) (config : Option Config) :
    SchedulerM Unit := do
  let combined := ((← get).stepAt ref).removeOnFailure
  modify fun s => s.updateStep ref fun step => step.revive newStatus
  releaseBatch recur ref newStatus config
  let counted := ((← get).stepAt ref).countsFailure newStatus
  let finalStatus := (((← get).stepAt ref).account now newStatus).2
  modify fun s => s.updateStep ref fun step => (step.account now newStatus).1
  moveStatus now ref finalStatus
  stampFailure now ref finalStatus combined config
  modify fun s => s.updateStep ref fun step => step.markEnd counted

/-- `set_status` with its recursive call as a parameter. -/
def setStatusBody (recur : Ref → Status → Option Config → SchedulerM Unit)
    (now : Time) (ref : Ref) (newStatus : Status) (config : Option Config) :
    SchedulerM Unit := do
  let s ← get
  if newStatus = .failed ∧ config = none then throw .noConfig
  else if (s.stepAt ref).ignores newStatus then pure ()
  else applyStatus recur now ref newStatus config

/-- `set_status` up to a recursion depth. -/
def setStatusUpTo : ℕ → Time → Ref → Status → Option Config → SchedulerM Unit
  | 0, _, _, _, _ => throw .recursionLimit
  | depth + 1, now, ref, newStatus, config =>
      setStatusBody (setStatusUpTo depth now) now ref newStatus config

/-- `set_status`.  The members of a batch are `BATCH_RUNNING` and pass nothing
on, so the recursion is two calls deep. -/
def setStatus : Time → Ref → Status → Option Config → SchedulerM Unit := setStatusUpTo 2

/-- `re_enable` with a configuration. -/
def reEnable (config : Config) (now : Time) (ref : Ref) : SchedulerM Unit := do
  modify fun s => s.updateStep ref Step.reEnable
  setStatus now ref .failed (some config)
  modify fun s => s.updateStep ref Step.clearFailures

def setBatchRunning (now : Time) (batchId : BatchId) (worker : WorkerId) (ref : Ref) :
    SchedulerM Unit := do
  setStatus now ref .batchRunning none
  modify fun s => s.updateStep ref fun step =>
    { step with
      batchId := some batchId
      workerRunning := some worker
      resourcesRunning := some step.resources
      resourcesShared := true
      timeRunning := some now }

end Trun
