import Trun.Scheduler.State

/-!
# `Scheduler.add_step`

The one request with which a worker schedules a step, reports a run, starts a
batch and sends a tracking URL.  `addStep` follows the source top to bottom;
each paragraph of the source is one definition.  The bookkeeping for batched
failure mails is left out.
-/

namespace Trun

/-- `retry_policy_dict`: absent entries keep the configured value. -/
structure RetryPolicyArgs where
  retryCount : Option Int := none
  disableHardTimeout : Option Int := none
  disableWindow : Option Int := none
  deriving DecidableEq

def Config.generateRetryPolicy (config : Config) (args : RetryPolicyArgs) : RetryPolicy where
  retryCount := args.retryCount.getD config.retryCount
  disableHardTimeout := args.disableHardTimeout.getD config.disableHardTimeout
  disableWindow := args.disableWindow.getD config.disableWindow

/-- The arguments of `add_step` with their defaults. -/
structure AddStepArgs where
  worker : WorkerId
  stepId : StepId
  status : Status := .pending
  runnable : Bool := true
  deps : Option (List StepId) := none
  newDeps : Option (List StepId) := none
  expl : Option String := none
  resources : Option Resources := none
  priority : Int := 0
  family : Family := ""
  module : Option String := none
  params : Option Params := none
  acceptsMessages : Option Bool := some false
  assistant : Bool := false
  trackingUrl : Option String := none
  batchable : Option Bool := none
  batchId : Option BatchId := none
  retryPolicy : RetryPolicyArgs := {}
  deriving DecidableEq

namespace AddStepArgs

/-- `{} if resources is None else resources.copy()`. -/
def declared (args : AddStepArgs) : Resources := args.resources.getD ∅

/-- The truth value of `new_deps`. -/
def hasNewDeps (args : AddStepArgs) : Bool :=
  match args.newDeps with
  | none => false
  | some newDeps => !newDeps.isEmpty

/-- `status in (DONE, FAILED, RUNNING)`. -/
def startedARun (args : AddStepArgs) : Bool :=
  match args.status with
  | .done | .failed | .running => true
  | _ => false

/-- `PENDING if status == SUSPENDED else status`. -/
def newStatus (args : AddStepArgs) : Status :=
  if args.status = .suspended then .pending else args.status

/-- `set(ids)`. -/
def idSet (moment : Moment) (ids : List StepId) : OrderedSet StepId :=
  (OrderedSet.ofList ids).rehash moment.idOrder

def defaultStep (args : AddStepArgs) (config : Config) (moment : Moment) : Step :=
  { Step.make config moment.now args.stepId .pending
      (idSet moment (args.deps.getD [])) args.priority with
    resources := args.declared
    family := args.family
    module := args.module
    params := args.params.getD ∅ }

end AddStepArgs

def Scheduler.updateWorker (s : Scheduler) (now : Time) (id : WorkerId) (getWork : Bool) :
    Scheduler :=
  (s.ensureWorker now id).updateWorkerAt id fun worker =>
    { worker with
      lastActive := now
      lastGetWork := if getWork then some now else worker.lastGetWork }

/-- The family, module and parameters of a step created as a placeholder. -/
def Step.fillPlaceholder (step : Step) (args : AddStepArgs) : Step :=
  { step with
    family := if step.family = "" then args.family else step.family
    module := if step.module = none ∨ step.module = some "" then args.module else step.module
    params := if step.params.isEmpty then args.params.getD ∅ else step.params }

/-- `if batch_id is not None: step.batch_id = batch_id`. -/
def Step.joinBatch (step : Step) (args : AddStepArgs) : Step :=
  { step with batchId := args.batchId <|> step.batchId }

/-- `resources_running` of the first batch step. -/
def copyBatchResources (ref : Ref) (batchId : BatchId) : SchedulerM Unit := do
  let s ← get
  match s.batchRunningSteps batchId with
  | [] => throw .noBatchSteps
  | first :: _ =>
    match (s.stepAt first).resourcesRunning with
    | none => throw .missingAttribute
    | some resources =>
        modify fun s => s.updateStep ref fun step =>
          { step with resourcesRunning := some resources, resourcesShared := false }

/-- `if batch_id:` the step runs with the resources of its batch. -/
def joinRunning (args : AddStepArgs) (ref : Ref) : SchedulerM Unit :=
  match args.batchId with
  | none => pure ()
  | some batchId => if batchId = "" then pure () else copyBatchResources ref batchId

/-- `if status == RUNNING and not step.worker_running`. -/
def claimRun (moment : Moment) (args : AddStepArgs) (ref : Ref) : SchedulerM Unit := do
  let s ← get
  if args.status = .running ∧ (s.stepAt ref).workerRunning = none then do
    modify fun s => s.updateStep ref fun step =>
      { step with workerRunning := some args.worker }
    joinRunning args ref
    modify fun s => s.updateStep ref fun step =>
      { step with timeRunning := some moment.now }
  else pure ()

/-- A field write on a step and on the running members of its batch. -/
def Scheduler.updateWithBatch (s : Scheduler) (ref : Ref) (change : Step → Step) :
    Scheduler :=
  let updated := s.updateStep ref change
  match (updated.stepAt ref).batchId with
  | none => updated
  | some batchId =>
      (updated.batchRunningSteps batchId).foldl
        (fun current member => current.updateStep member change) updated

/-- `accepts_messages`, `tracking_url`, `batchable`, `remove` and `expl`. -/
def Scheduler.describeStep (args : AddStepArgs) (ref : Ref) (s : Scheduler) : Scheduler :=
  let s := s.updateStep ref fun step =>
    { step with acceptsMessages := args.acceptsMessages.getD step.acceptsMessages }
  let s :=
    if args.trackingUrl ≠ none ∨ (s.stepAt ref).status ≠ .running then
      s.updateWithBatch ref fun step => { step with trackingUrl := args.trackingUrl }
    else s
  let s := s.updateStep ref fun step =>
    { step with batchable := args.batchable.getD step.batchable, remove := none }
  if args.expl ≠ none then
    s.updateWithBatch ref fun step => { step with expl := args.expl }
  else s

/-- The guard in front of `set_status`. -/
def Step.acceptsReport (step : Step) (args : AddStepArgs) : Bool :=
  !step.status.isRunning ||
    (args.startedARun && step.workerRunning == some args.worker) || args.hasNewDeps

def reportStatus (config : Config) (moment : Moment) (args : AddStepArgs) (ref : Ref) :
    SchedulerM Unit := do
  let s ← get
  if (s.stepAt ref).acceptsReport args then
    setStatus moment.now ref args.newStatus (some config)
  else pure ()

/-- `deps`, `new_deps` and `resources`. -/
def Step.declare (step : Step) (moment : Moment) (args : AddStepArgs) : Step :=
  let deps :=
    match args.deps with
    | none => step.deps
    | some ids => AddStepArgs.idSet moment ids
  { step with
    deps :=
      match args.newDeps with
      | none => deps
      | some ids => (deps.addAll ids).rehash moment.idOrder
    resources := args.declared
    resourcesShared := false }

def Step.addStakeholder (step : Step) (worker : WorkerId) : Step :=
  { step with stakeholders := insert worker step.stakeholders }

/-- A dependency gets a dummy step where it has none yet, and the stakeholder. -/
def Scheduler.holdDependency (config : Config) (moment : Moment) (args : AddStepArgs)
    (s : Scheduler) (dep : StepId) : Scheduler :=
  let s := s.setdefaultStep (Step.make config moment.now dep .unknown ∅ args.priority)
  match s.getStep dep with
  | none => s
  | some ref => s.updateStep ref fun step => step.addStakeholder args.worker

/-- `if worker.enabled and not assistant`. -/
def Scheduler.addStakeholders (config : Config) (moment : Moment) (args : AddStepArgs)
    (ref : Ref) (enabled : Bool) (s : Scheduler) : Scheduler :=
  if enabled && !args.assistant then
    let s := s.updateStep ref fun step => step.addStakeholder args.worker
    (s.stepAt ref).deps.elems.foldl (Scheduler.holdDependency config moment args) s
  else s

/-- `_update_priority` up to a recursion depth. -/
def updatePriorityUpTo : ℕ → Int → Ref → SchedulerM Unit
  | 0, _, _ => throw .recursionLimit
  | depth + 1, priority, ref => do
      let s ← get
      let raised := max priority (s.stepAt ref).priority
      modify fun s => s.updateStep ref fun step => { step with priority := raised }
      (s.stepAt ref).deps.elems.forM fun dep => do
        let s ← get
        match s.getStep dep with
        | none => pure ()
        | some target =>
            if (s.stepAt target).priority < raised then
              updatePriorityUpTo depth raised target
            else pure ()

/-- `_update_priority`.  Along one chain of calls every step after the first is
raised once, so the number of steps bounds the depth. -/
def updatePriority (priority : Int) (ref : Ref) : SchedulerM Unit := do
  let s ← get
  updatePriorityUpTo (s.steps.size + 1) priority ref

/-- The retry policy, and the worker as one that can run the step. -/
def Scheduler.registerWorker (config : Config) (moment : Moment) (args : AddStepArgs)
    (ref : Ref) (enabled : Bool) (s : Scheduler) : Scheduler :=
  let s := s.updateStep ref fun step =>
    { step with retryPolicy := config.generateRetryPolicy args.retryPolicy }
  if args.runnable && args.status != .failed && enabled then
    ((s.updateStep ref fun step =>
        { step with workers := step.workers.add args.worker }).updateWorkerAt args.worker
      fun worker =>
        { worker with steps := (worker.steps.add ref).rehash moment.refOrder }).updateStep ref
      fun step => { step with runnable := true }
  else s

/-- `add_step` for a step that exists and whose report is not dropped. -/
def acceptStep (config : Config) (moment : Moment) (args : AddStepArgs) (ref : Ref)
    (enabled : Bool) : SchedulerM Unit := do
  modify fun s => s.updateStep ref fun step => (step.fillPlaceholder args).joinBatch args
  claimRun moment args ref
  modify fun s => s.describeStep args ref
  reportStatus config moment args ref
  modify fun s => s.updateStep ref fun step => step.declare moment args
  modify fun s => s.addStakeholders config moment args ref enabled
  updatePriority args.priority ref
  modify fun s => s.registerWorker config moment args ref enabled

/-- The claims `add_step` drops: any about a step that does not run, from a
disabled worker, and that a step is `PENDING` when it was `DONE` a moment ago. -/
def Step.dropsClaim (step : Step) (config : Config) (moment : Moment) (args : AddStepArgs)
    (enabled : Bool) : Bool :=
  (step.status != .running && !enabled) ||
    (args.status == .pending && step.status == .done &&
      decide (moment.now - step.updated < config.stableDoneCooldownSecs))

/-- The beginning of `add_step`: the sign of life of the worker, and the step with
the given id, which an enabled worker creates where there is none. -/
def Scheduler.receiveStep (config : Config) (moment : Moment) (args : AddStepArgs)
    (s : Scheduler) : Scheduler :=
  let s := s.updateWorker moment.now args.worker false
  if (s.workerAt args.worker).enabled then s.setdefaultStep (args.defaultStep config moment)
  else s

def addStep (config : Config) (moment : Moment) (args : AddStepArgs) : SchedulerM Unit := do
  modify fun s => s.receiveStep config moment args
  let s ← get
  let enabled := (s.workerAt args.worker).enabled
  match s.getStep args.stepId with
  | none => pure ()
  | some ref =>
    if (s.stepAt ref).dropsClaim config moment args enabled then pure ()
    else acceptStep config moment args ref enabled

end Trun
