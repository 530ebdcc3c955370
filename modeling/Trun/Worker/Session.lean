import Trun.Scheduler.Answering
import Trun.Worker.Steps

/-!
# A worker with one process

`Worker` with `worker_processes = 1`, which talks to a local scheduler and runs
every step in its own process.  `add` explores the requirements of a step and
schedules what it finds; `run` asks for work and handles the results until
there is nothing left to do.

The loops of the source have no bound, so the functions that contain one take
the number of rounds as fuel.  Left out are signals, sleeping, log lines, mails
and the multiprocessing pool of `add`.
-/

namespace Trun

open Program

/-- The places where a worker can raise, and the end of the fuel. -/
inductive Fault where
  | scheduler (raised : Raised)
  /-- `KeyError` of `_scheduled_steps[step_id]`. -/
  | unscheduledStep
  /-- `load_step` in `_handle_next_step` and, for some exceptions, in `_get_work`. -/
  | load (error : LoadError)
  | outOfFuel
  deriving DecidableEq

/-- A worker with its scheduler and the world. -/
structure Session (σ : Type) where
  scheduler : Scheduler
  world : σ
  /-- What the scheduler was asked, in order. -/
  requests : List Request := []
  /-- Every call of `run`, in order.  No function reads it. -/
  runs : List (Run σ) := []
  /-- Every call of `complete` by `add`, in order.  No function reads it. -/
  checks : List StepId := []
  scheduledSteps : OrderedSet StepId := ∅
  batchRunningSteps : Dict StepId (List StepId) := ∅
  batchFamiliesSent : OrderedSet Family := ∅
  addSucceeded : Bool := true
  runSucceeded : Bool := true
  unfulfilledCounts : Dict String ℕ := ∅
  stepResultQueue : List StepResult := []
  runningSteps : OrderedSet StepId := ∅
  idleSince : Option Time := none
  stopRequestingWork : Bool := false
  addStepHistory : List (StepId × Status × Option Bool) := []
  getWorkResponseHistory : List (Option StepId × List RunningStep) := []
  /-- `_step_completion_cache`, if there is one. -/
  completionCache : CompletionCache := []

abbrev WorkerM (σ : Type) := Program Fault (Session σ)

/-- What a worker works with. -/
structure Setting (σ : Type) where
  code : StepCode σ
  config : WorkerConfig := {}
  /-- `_id`. -/
  worker : WorkerId
  assistant : Bool := false
  /-- The scheduler's configuration. -/
  env : Env
  /-- When the scheduler serves the request with this number. -/
  clock : ℕ → Moment

structure GetWorkResponse where
  stepId : Option StepId
  runningSteps : List RunningStep := []
  nPendingSteps : ℕ := 0
  nUniquePending : ℕ := 0
  nPendingLastScheduled : ℕ := 0
  workerState : WorkerState

/-- What `_add` finds out about a step. -/
structure StepPlan where
  deps : Option (List StepId)
  status : Status
  runnable : Bool
  deriving DecidableEq

namespace Session

variable {σ : Type}

/-- A worker that has done nothing yet. -/
def start (scheduler : Scheduler) (world : σ) : Session σ := ⟨scheduler, world, [], [], [], ∅, ∅, ∅,
  true, true, ∅, [], ∅, none, false, [], [], []⟩

/-- `_add_step_history` gets the step and, once, the members of its batch. -/
def noteStep (w : Session σ) (id : StepId) (status : Status) (runnable : Option Bool) :
    Session σ :=
  let own := if id ∈ w.scheduledSteps then [(id, status, runnable)] else []
  let members := (w.batchRunningSteps.getD id []).map fun member => (member, status, some true)
  { w with
    addStepHistory := w.addStepHistory ++ own ++ members
    batchRunningSteps := w.batchRunningSteps.erase id }

/-- `_start_phasing_out`.  It also turns `keep_alive` off. -/
def startPhasingOut (w : Session σ) : Session σ := { w with stopRequestingWork := true }

end Session

namespace Setting

variable {σ : Type} (setting : Setting σ)

/-- A call of a method of the scheduler. -/
def ask (request : Request) : WorkerM σ Response := do
  let w ← get
  let event : Event := ⟨setting.clock w.requests.length, request⟩
  modify fun w => { w with
    scheduler := setting.env.after w.scheduler event
    requests := w.requests ++ [request] }
  match setting.env.outcome w.scheduler event with
  | .ok response => pure response
  | .error raised => throw (.scheduler raised)

def addStep (args : AddStepArgs) (runnable : Option Bool) : WorkerM σ Unit := do
  modify fun w => w.noteStep args.stepId args.status runnable
  let _ ← setting.ask (.addStep { args with runnable := runnable.getD false })

def handleStepLoadError (error : LoadError) (ids : List StepId) : WorkerM σ Unit :=
  ids.forM fun id =>
    setting.addStep
      { worker := setting.worker, stepId := id, status := .failed, expl := some error.trace }
      (some false)

/-! ## `add` -/

def addStepBatcher (id : StepId) : WorkerM σ Unit := do
  let w ← get
  let family := setting.code.family id
  if family ∈ w.batchFamiliesSent then pure ()
  else do
    let names := setting.code.batchParamNames id
    if names.isEmpty then pure ()
    else do
      let _ ← setting.ask (.addStepBatcher setting.worker family
        ⟨names, setting.code.maxBatchSize id⟩)
    modify fun w => { w with batchFamiliesSent := w.batchFamiliesSent.add family }

/-- An exception in `complete` or `deps`, and a value of `complete` that is no boolean. -/
def planBroken : WorkerM σ StepPlan := do
  modify fun w => { w with addSucceeded := false }
  pure ⟨none, .unknown, false⟩

/-- What is known about a step from its completeness. -/
def planStep (id : StepId) : Completion → WorkerM σ StepPlan
  | .answers true => pure ⟨none, .done, false⟩
  | .answers false => do
      let w ← get
      if setting.code.external id then
        pure ⟨none, .pending, setting.config.retryExternalSteps⟩
      else
        match setting.code.deps id w.world with
        | .error _ => planBroken
        | .ok deps => do
            setting.addStepBatcher id
            pure ⟨some deps, .pending, true⟩
  | _ => planBroken

/-- The first half of `_add`. -/
def makePlan (id : StepId) (isComplete : Completion) : WorkerM σ StepPlan := do
  let w ← get
  if setting.config.stepLimit.any fun limit =>
      decide (limit ≤ (w.scheduledSteps.size : Int)) then
    pure ⟨none, .unknown, false⟩
  else do
    let plan ← setting.planStep id isComplete
    pure (if setting.code.disabled id then { plan with status := .disabled } else plan)

/-- The request at the end of `_add`. -/
def scheduleArgs (id : StepId) (plan : StepPlan) : AddStepArgs where
  worker := setting.worker
  stepId := id
  status := plan.status
  deps := plan.deps
  priority := setting.code.priority id
  resources := some (setting.code.resources id)
  params := some (setting.code.params id)
  family := setting.code.family id
  module := setting.code.module id
  batchable := some (setting.code.batchable id)
  retryPolicy := setting.code.retryPolicy id
  acceptsMessages := some (setting.code.acceptsMessages id)

/-- The end of `_add`. -/
def scheduleStep (id : StepId) (plan : StepPlan) : WorkerM σ Unit := do
  modify fun w => { w with scheduledSteps := w.scheduledSteps.add id }
  setting.addStep (setting.scheduleArgs id plan) (some plan.runnable)

def knows (cache : CompletionCache) (id : StepId) : Bool :=
  setting.config.cacheStepCompletion && cache.contains id

/-- `check_complete`, as the pool of `add` calls it. -/
def checkComplete (id : StepId) : WorkerM σ (StepId × Completion) := do
  let w ← get
  let (isComplete, cache) :=
    setting.code.checkCompleteCached setting.config w.world w.completionCache id
  modify fun w => { w with
    checks := w.checks ++ (if setting.knows w.completionCache id then [] else [id])
    completionCache := cache }
  pure (id, isComplete)

/-- The loop over what `_add` yields: a new step is put on the queue with its completeness.
The queue is a stack, with its top at the head. -/
def discover (deps : List StepId) (found : List (StepId × Completion) × OrderedSet StepId) :
    WorkerM σ (List (StepId × Completion) × OrderedSet StepId) :=
  deps.foldlM
    (fun found dep =>
      if dep ∈ found.2 then pure found
      else do
        let item ← setting.checkComplete dep
        pure (item :: found.1, found.2.add dep)) found

/-- The loop of `add`.  `_add` yields the dependencies of a step before it reports the step. -/
def explore : ℕ → List (StepId × Completion) × OrderedSet StepId → WorkerM σ Unit
  | _, ([], _) => pure ()
  | 0, (_ :: _, _) => throw .outOfFuel
  | fuel + 1, ((id, isComplete) :: queue, seen) => do
      let plan ← setting.makePlan id isComplete
      let found ← setting.discover (plan.deps.getD []) (queue, seen)
      setting.scheduleStep id plan
      explore fuel found

/-- `add`.  An exception on the way counts as a failure. -/
def add (fuel : ℕ) (id : StepId) : WorkerM σ Bool := do
  modify fun w => { w with addSucceeded := true }
  let item ← setting.checkComplete id
  tryCatch (setting.explore fuel ([item], OrderedSet.empty.add id))
    fun fault => do
      modify fun w => { w with addSucceeded := false }
      throw fault
  return (← get).addSucceeded

/-! ## `run` -/

def getWorkStepId : Work → WorkerM σ (Option StepId)
  | .nothing => pure none
  | .single id _ _ _ => pure (some id)
  | .batch batchId ids family module params =>
    match setting.code.load module family params with
    | .error error => do
        setting.handleStepLoadError error ids
        modify fun w => { w with runSucceeded := false }
        pure none
    | .ok id => do
        let _ ← setting.ask (.addStep
          { worker := setting.worker, stepId := id, module := module, family := family
            params := some (setting.code.params id), status := .running
            batchId := some batchId })
        pure (some id)

/-- The step, with its module, family and parameters, that was handed out. -/
def loadWork : Work → Except LoadError StepId
  | .nothing => .error (.other "")
  | .single _ family module params => setting.code.load module family (combineParams params ∅)
  | .batch _ _ family module params => setting.code.load module family params

/-- A step that the worker did not schedule is loaded. -/
def loadStep (work : Work) (id : StepId) : WorkerM σ (Option StepId) := do
  let w ← get
  if id ∈ w.scheduledSteps then pure (some id)
  else
    match setting.loadWork work with
    | .ok _ => do
        modify fun w => { w with scheduledSteps := w.scheduledSteps.add id }
        pure (some id)
    | .error (.stepClass trace) => do
        setting.handleStepLoadError (.stepClass trace) [id]
        modify fun w => { w with runSucceeded := false }
        pure none
    | .error error => throw (.load error)

/-- `_batch_running_steps[step_id] = batch_steps`. -/
def noteBatch (id : StepId) : Work → WorkerM σ Unit
  | .batch _ ids _ _ _ => modify fun w => { w with
      batchRunningSteps := w.batchRunningSteps.set id (ids.filter (· ∈ w.scheduledSteps)) }
  | _ => pure ()

/-- `_get_work`, once the scheduler has answered. -/
def takeWork (reply : Reply) : WorkerM σ GetWorkResponse := do
  let handed ← setting.getWorkStepId reply.work
  modify fun w => { w with
    getWorkResponseHistory := w.getWorkResponseHistory ++ [(handed, reply.pending.runningSteps)] }
  let stepId ←
    match handed with
    | none => pure none
    | some id => setting.loadStep reply.work id
  match stepId with
  | none => pure ()
  | some id => noteBatch id reply.work
  pure
    { stepId := stepId
      runningSteps := reply.pending.runningSteps
      nPendingSteps := reply.pending.nPendingSteps
      nUniquePending := reply.pending.nUniquePending
      nPendingLastScheduled := reply.pending.nPendingLastScheduled
      workerState := reply.pending.workerState }

def getWork : WorkerM σ GetWorkResponse := do
  let w ← get
  if w.stopRequestingWork then pure { stepId := none, workerState := .disabled }
  else do
    let response ← setting.ask (.getWork
      { worker := setting.worker, assistant := setting.assistant
        currentSteps := some w.runningSteps.elems })
    match response with
    | .work reply => setting.takeWork reply
    | _ => pure { stepId := none, workerState := .active } -- no other reply comes

/-- `_run_step`: the process runs here and now.  A step that runs already is left alone. -/
def runStep (id : StepId) : WorkerM σ Unit := do
  let w ← get
  if id ∈ w.runningSteps then pure ()
  else if id ∈ w.scheduledSteps then
    let processed := setting.code.process setting.config id w.world w.completionCache
    modify fun w => { w with
      world := processed.world
      completionCache := processed.cache
      runs := w.runs ++ processed.run.toList
      runningSteps := w.runningSteps.add id
      stepResultQueue := w.stepResultQueue ++ [processed.result] }
  else throw .unscheduledStep

/-- The request with which a result is passed on. -/
def reportArgs (result : StepResult) (newDeps : List StepId) : AddStepArgs where
  worker := setting.worker
  stepId := result.stepId
  status := result.status
  expl := some result.expl
  resources := some (setting.code.resources result.stepId)
  params := some (setting.code.params result.stepId)
  family := setting.code.family result.stepId
  module := setting.code.module result.stepId
  newDeps := some newDeps
  assistant := setting.assistant
  retryPolicy := setting.code.retryPolicy result.stepId

/-- `[load_step(module, name, params) for ... in new_requirements]`. -/
def loadRequirements :
    List (Option String × Family × Params) → Except LoadError (List StepId)
  | [] => .ok []
  | (module, family, params) :: rest =>
    match setting.code.load module family (combineParams params ∅) with
    | .error error => .error error
    | .ok id => (loadRequirements rest).map (id :: ·)

/-- The counts of missing dependencies, and whether the step may be added again. -/
def countMissing (w : Session σ) (missing : List String) : Session σ × Bool :=
  missing.foldl
    (fun current entry =>
      let counts := current.1.unfulfilledCounts.modify entry 0 (· + 1)
      ({ current.1 with unfulfilledCounts := counts },
        current.2 && decide (counts.getD entry 0 ≤ setting.config.maxReschedules))) (w, true)

/-- A step with missing dependencies is added again, unless that happened too often. -/
def reschedule (fuel : ℕ) (id : StepId) (missing : List String) : WorkerM σ Unit := do
  if missing.isEmpty then pure ()
  else do
    let w ← get
    let (counted, again) := setting.countMissing w missing
    modify fun _ => counted
    if again then
      let _ ← setting.add fuel id
    else pure ()

/-- `_handle_next_step`, once it has a result of a running step. -/
def handleResult (fuel : ℕ) (result : StepResult) : WorkerM σ Unit := do
  let newDeps ←
    match setting.loadRequirements result.newDeps with
    | .error error => throw (.load error)
    | .ok ids => pure ids
  newDeps.forM fun id => do
    let _ ← setting.add fuel id
  setting.addStep (setting.reportArgs result newDeps) none
  modify fun w => { w with runningSteps := w.runningSteps.removeAll [result.stepId] }
  setting.reschedule fuel result.stepId result.missing
  modify fun w => { w with
    runSucceeded := w.runSucceeded && (result.status == .done || !newDeps.isEmpty) }

/-- The loop of `_handle_next_step` over the queue: results of steps that do not run any more
are passed over.  `_purge_children` has nothing to do, since no process was started. -/
def handleQueue (fuel : ℕ) : List StepResult → WorkerM σ Unit
  | [] => pure ()
  | result :: rest => do
      let w ← get
      modify fun w => { w with stepResultQueue := rest }
      if result.stepId ∉ w.scheduledSteps then throw .unscheduledStep
      else if result.stepId ∈ w.runningSteps then setting.handleResult fuel result
      else handleQueue fuel rest

def handleNextStep (fuel : ℕ) : WorkerM σ Unit := do
  modify fun w => { w with idleSince := none }
  let w ← get
  setting.handleQueue fuel w.stepResultQueue

def keepAlive (w : Session σ) (now : Time) (response : GetWorkResponse) : Bool :=
  let config := setting.config
  if !config.keepAlive || w.stopRequestingWork then false
  else if setting.assistant then true
  else if config.countLastScheduled then decide (0 < response.nPendingLastScheduled)
  else if config.countUniques then decide (0 < response.nUniquePending)
  else if response.nPendingSteps = 0 then false
  else if config.maxKeepAliveIdleDuration = 0 then true
  else
    match w.idleSince with
    | none => true
    | some since => decide (0 < since + config.maxKeepAliveIdleDuration - now)

/-- The main loop of `run`.  One process runs at most one step, so where a step runs its result
is handled before the worker asks for more. -/
def mainLoop : ℕ → WorkerM σ Unit
  | 0 => throw .outOfFuel
  | fuel + 1 => do
      let w ← get
      if 1 ≤ w.runningSteps.size then do
        setting.handleNextStep fuel
        mainLoop fuel
      else do
        let response ← setting.getWork
        if response.workerState = .disabled then modify Session.startPhasingOut else pure ()
        match response.stepId with
        | some id => do
            setting.runStep id
            mainLoop fuel
        | none => do
            let now := (setting.clock (← get).requests.length).now
            modify fun w => { w with idleSince := w.idleSince <|> some now }
            let w ← get
            if setting.keepAlive w now response then mainLoop fuel else pure ()

/-- The last loop of `run`. -/
def shutDown : ℕ → WorkerM σ Unit
  | 0 => throw .outOfFuel
  | fuel + 1 => do
      let w ← get
      if w.runningSteps.size = 0 then pure ()
      else do
        setting.handleNextStep fuel
        shutDown fuel

def run (fuel : ℕ) : WorkerM σ Bool := do
  modify fun w => { w with runSucceeded := true }
  let _ ← setting.ask (.addWorker setting.worker { workers := some 1 })
  setting.mainLoop fuel
  setting.shutDown fuel
  return (← get).runSucceeded

end Setting

end Trun
