import Mathlib.Algebra.Ring.Nat
import Mathlib.Data.List.Sort
import Trun.Scheduler.AddStep
import Trun.Scheduler.Prune

/-!
# `Scheduler.count_pending` and `Scheduler.get_work`

`get_work` first looks for a step the worker lost, puts its unclaimed batch
steps back, and then ranks the steps it may look at.  The ranked loop changes
only local variables, which `Selection` collects; the state changes again when
the chosen step or batch is marked as running.
-/

namespace Trun

/-! ## Upstream status -/

/-- `UPSTREAM_SEVERITY_ORDER`, from the mildest on. -/
inductive UpstreamStatus where
  | none
  | running
  | missingInput
  | failed
  | disabled
  deriving DecidableEq

namespace UpstreamStatus

/-- `UPSTREAM_SEVERITY_KEY`. -/
def severity : UpstreamStatus → ℕ
  | .none => 0
  | .running => 1
  | .missingInput => 2
  | .failed => 3
  | .disabled => 4

/-- `STATUS_TO_UPSTREAM_MAP.get(status, '')`. -/
def ofStatus : Status → UpstreamStatus
  | .failed => .failed
  | .running | .batchRunning => .running
  | .pending => .missingInput
  | .disabled => .disabled
  | _ => .none

/-- The first of the most severe ones. -/
def worst (statuses : List UpstreamStatus) : UpstreamStatus :=
  statuses.foldl
    (fun current next => if current.severity < next.severity then next else current) .none

end UpstreamStatus

abbrev UpstreamTable := Dict StepId UpstreamStatus

/-- What the upstream loop does with one id: the ids to push (last one on top)
and the new table. -/
def Scheduler.upstreamVisit (s : Scheduler) (id : StepId) (table : UpstreamTable) :
    List StepId × UpstreamTable :=
  match s.getStep id with
  | none => ([], table)
  | some ref =>
    let dep := s.stepAt ref
    if dep.status = .done then ([], table)
    else
      match table.get? id with
      | none =>
          if dep.status = .pending ∧ dep.deps.elems ≠ [] then
            (id :: dep.deps.elems, table.set id .none)
          else ([], table.set id (.ofStatus dep.status))
      | some known =>
          if known = .none ∧ dep.deps.elems ≠ [] then
            ([], table.set id
              (.worst (dep.deps.elems.map fun dep => table.getD dep .none)))
          else ([], table)

/-- The loop of `_upstream_status`, with the top of the stack at the head. -/
def Scheduler.upstreamLoop (s : Scheduler) :
    ℕ → List StepId → UpstreamTable → Except Raised UpstreamTable
  | _, [], table => .ok table
  | 0, _ :: _, _ => .error .recursionLimit
  | fuel + 1, id :: stack, table =>
      let (pushed, table) := s.upstreamVisit id table
      s.upstreamLoop fuel (pushed.reverse ++ stack) table

/-- Every id is expanded at most once, which bounds the rounds of the loop. -/
def Scheduler.upstreamBound (s : Scheduler) : ℕ :=
  1 + (s.activeSteps.map fun ref => (s.stepAt ref).deps.size + 1).sum

/-- `_upstream_status`; `none` for an id without a step.  The id popped last is
the one the stack started with. -/
def Scheduler.upstreamStatus (s : Scheduler) (id : StepId) (table : UpstreamTable) :
    Except Raised (Option UpstreamStatus × UpstreamTable) :=
  match table.get? id with
  | some status => .ok (some status, table)
  | none =>
    match s.getStep id with
    | none => .ok (none, table)
    | some _ =>
      match s.upstreamLoop s.upstreamBound [id] table with
      | .error raised => .error raised
      | .ok table =>
        match table.get? id with
        | none => .error .upstreamTable
        | some status => .ok (some status, table)

/-! ## `count_pending` -/

/-- The filter over the worker's own steps in `get_steps`. -/
def Worker.selfSteps (worker : Worker) (s : Scheduler) (statuses : List Status) : List Ref :=
  worker.steps.elems.filter fun ref => (s.stepAt ref).status ∈ statuses

/-- The filter over the steps of the state in `get_steps`. -/
def Worker.stateSteps (worker : Worker) (s : Scheduler) (statuses : List Status) : List Ref :=
  (s.activeStepsByStatus statuses).filter fun ref => worker.id ∈ (s.stepAt ref).workers

def Worker.getSteps (worker : Worker) (s : Scheduler) (statuses : List Status) : List Ref :=
  let numSelfSteps := worker.steps.size
  let numStateSteps := (statuses.map fun status => (s.bucket status).size).sum
  if numSelfSteps < numStateSteps then worker.selfSteps s statuses
  else worker.stateSteps s statuses

def Worker.isTrivialWorker (worker : Worker) (s : Scheduler) : Bool :=
  !worker.assistant &&
    (worker.getSteps s [.pending]).all fun ref => (s.stepAt ref).resources.isEmpty

structure RunningStep where
  stepId : StepId
  worker : WorkerId
  info : WorkerInfo
  deriving DecidableEq

structure PendingReply where
  nPendingSteps : ℕ := 0
  nUniquePending : ℕ := 0
  nPendingLastScheduled : ℕ := 0
  workerState : WorkerState
  runningSteps : List RunningStep := []
  deriving DecidableEq

/-- Run a pure computation that may raise. -/
def liftExcept {α : Type} : Except Raised α → SchedulerM α
  | .ok value => pure value
  | .error raised => throw raised

/-- The first loop of `count_pending`.  It asks for the worker of each running
step and so creates one that is not known. -/
def listRunning (now : Time) :
    List Ref → UpstreamTable → SchedulerM (List RunningStep × UpstreamTable)
  | [], table => pure ([], table)
  | ref :: rest, table => do
      let s ← get
      let step := s.stepAt ref
      let (upstream, table) ← liftExcept (s.upstreamStatus step.id table)
      if upstream = some .disabled then listRunning now rest table
      else
        match step.workerRunning with
        | none => throw .noneValue
        | some owner => do
            modify fun s => s.ensureWorker now owner
            let s ← get
            let entry : RunningStep := ⟨step.id, owner, (s.workerAt owner).info⟩
            let (entries, table) ← listRunning now rest table
            pure (entry :: entries, table)

/-- The second loop of `count_pending`. -/
def Scheduler.countPendingSteps (s : Scheduler) (worker : WorkerId) :
    List Ref → UpstreamTable → PendingReply → Except Raised PendingReply
  | [], _, reply => .ok reply
  | ref :: rest, table, reply =>
    let step := s.stepAt ref
    match s.upstreamStatus step.id table with
    | .error raised => .error raised
    | .ok (upstream, table) =>
      if upstream = some .disabled then s.countPendingSteps worker rest table reply
      else
        match step.workers.peekLast with
        | none => .error .emptySet
        | some last =>
          s.countPendingSteps worker rest table
            { reply with
              nPendingSteps := reply.nPendingSteps + 1
              nUniquePending :=
                reply.nUniquePending + if step.workers.size = 1 then 1 else 0
              nPendingLastScheduled :=
                reply.nPendingLastScheduled + if last = worker then 1 else 0 }

def countPending (moment : Moment) (worker : WorkerId) : SchedulerM PendingReply := do
  modify fun s => s.ensureWorker moment.now worker
  let s ← get
  let (running, table) ←
    listRunning moment.now ((s.workerAt worker).getSteps s [.running]) ∅
  let s ← get
  liftExcept (s.countPendingSteps worker
    ((s.workerAt worker).getSteps s [.pending, .failed]) table
    { workerState := (s.workerAt worker).state, runningSteps := running })

/-! ## Resources and ranks -/

/-- `used[resource] += amount` for every amount. -/
def addResources (used amounts : Resources) : Resources :=
  amounts.entries.foldl (fun used entry => used.modify entry.1 0 (· + entry.2)) used

/-- `getattr(step, "resources_running", step.resources)`. -/
def Step.charged (step : Step) : Resources := step.resourcesRunning.getD step.resources

namespace Scheduler

def limit (s : Scheduler) (resource : String) : Int := s.resources.getD resource 1

def hasResources (s : Scheduler) (needed used : Resources) : Bool :=
  needed.entries.all fun entry =>
    decide (entry.2 + used.getD entry.1 0 ≤ s.limit entry.1)

def usedResources (s : Scheduler) : Resources :=
  (s.activeStepsByStatus [.running]).foldl
    (fun used ref => addResources used (s.stepAt ref).charged) ∅

/-- `_rank(left) <= _rank(right)`. -/
def rankLe (s : Scheduler) (left right : Ref) : Prop :=
  (s.stepAt left).priority < (s.stepAt right).priority ∨
    ((s.stepAt left).priority = (s.stepAt right).priority ∧
      (s.stepAt right).time ≤ (s.stepAt left).time)

instance (s : Scheduler) : DecidableRel s.rankLe := fun _ _ => by
  unfold rankLe; infer_instance

/-- `sorted(refs, key=self._rank)`. -/
def sortByRank (s : Scheduler) (refs : List Ref) : List Ref := refs.insertionSort s.rankLe

/-- `refs.sort(key=self._rank, reverse=True)`. -/
def sortByRankReverse (s : Scheduler) (refs : List Ref) : List Ref :=
  refs.insertionSort fun left right => s.rankLe right left

def schedulable (s : Scheduler) (ref : Ref) : Bool :=
  (s.stepAt ref).status == .pending &&
    (s.stepAt ref).deps.elems.all fun dep =>
      match s.getStep dep with
      | none => false
      | some target => (s.stepAt target).status == .done

def getBatcher (s : Scheduler) (worker : WorkerId) (family : Family) : Batcher :=
  ((s.stepBatchers.getD worker ∅).get? family).getD ⟨[], some 1⟩

end Scheduler

/-! ## Choosing the work -/

structure GetWorkArgs where
  worker : WorkerId
  assistant : Bool := false
  currentSteps : Option (List StepId) := none
  deriving DecidableEq

/-- A step the worker runs according to the scheduler but not to itself. -/
def Scheduler.lostStep (s : Scheduler) (args : GetWorkArgs) : Option Ref :=
  match args.currentSteps with
  | none => none
  | some current =>
    ((s.sortByRank (s.activeStepsByStatus [.running])).filter fun ref =>
      (s.stepAt ref).workerRunning = some args.worker ∧
        (s.stepAt ref).id ∉ current).getLast?

/-- The steps `_reset_orphaned_batch_running_steps` puts back. -/
def Scheduler.orphanedSteps (s : Scheduler) (worker : WorkerId) : List Ref :=
  let runningBatchIds :=
    ((s.activeStepsByStatus [.running]).filter fun ref =>
      (s.stepAt ref).workerRunning = some worker).map fun ref => (s.stepAt ref).batchId
  (s.activeStepsByStatus [.batchRunning]).filter fun ref =>
    (s.stepAt ref).workerRunning = some worker ∧
      (s.stepAt ref).batchId ∉ runningBatchIds

def resetOrphanedBatchRunningSteps (now : Time) (worker : WorkerId) : SchedulerM Unit := do
  let s ← get
  (s.orphanedSteps worker).forM fun ref => setStatus now ref .pending none

/-- The local variables of the ranked loop. -/
structure Selection where
  bestStep : Option Ref := none
  /-- Batched parameter names with the values of the members so far. -/
  batchedParams : Option (Dict String (List (Option String))) := none
  unbatchedParams : Params := ∅
  batchedSteps : List Ref := []
  maxBatchSize : Option ℕ := some 1
  greedyResources : Resources := ∅
  greedyWorkers : Dict WorkerId Int := ∅
  deriving DecidableEq

namespace Scheduler

variable (s : Scheduler) (args : GetWorkArgs)

/-- `len(batched_steps) < max_batch_size`. -/
def fitsBatch (size : ℕ) : Option ℕ → Bool
  | none => true
  | some bound => decide (size < bound)

/-- The condition under which a ranked step joins the batch of `best`. -/
def joinsBatch (selection : Selection) (best ref : Ref) : Bool :=
  let step := s.stepAt ref
  step.family == (s.stepAt best).family &&
    fitsBatch selection.batchedSteps.length selection.maxBatchSize &&
    step.batchable &&
    (selection.unbatchedParams.entries.all fun entry =>
      step.params.get? entry.1 == some entry.2) &&
    step.resources.sameItems (s.stepAt best).resources &&
    s.schedulable ref

/-- The first paragraph of the loop body, once a step has been chosen. -/
def extendBatch (best : Ref) (selection : Selection) (ref : Ref) : Selection :=
  match selection.batchedParams with
  | none => selection
  | some batched =>
    if !batched.isEmpty && s.joinsBatch selection best ref then
      { selection with
        batchedParams := some (batched.keys.foldl
          (fun current name =>
            current.modify name [] (· ++ [(s.stepAt ref).params.get? name])) batched)
        batchedSteps := selection.batchedSteps ++ [ref] }
    else selection

/-- A running step takes a slot of its worker and its resources. -/
def reserveRunning (selection : Selection) (ref : Ref) : Selection :=
  let step := s.stepAt ref
  match step.status, step.workerRunning with
  | .running, some owner =>
    if selection.greedyWorkers.contains owner then
      { selection with
        greedyWorkers := selection.greedyWorkers.modify owner 0 (· - 1)
        greedyResources := addResources selection.greedyResources step.charged }
    else selection
  | _, _ => selection

/-- The first worker with a free slot is reserved for a step that has to wait. -/
def reserveGreedily (selection : Selection) (ref : Ref) : Selection :=
  let step := s.stepAt ref
  let workers := step.workers.elems ++ if args.assistant then [args.worker] else []
  match workers.find? fun worker => decide (0 < selection.greedyWorkers.getD worker 0) with
  | none => selection
  | some worker =>
    { selection with
      greedyWorkers := selection.greedyWorkers.modify worker 0 (· - 1)
      greedyResources := addResources selection.greedyResources step.resources }

/-- The chosen step becomes the first member of a batch where it has all the
batched parameters. -/
def chooseStep (selection : Selection) (ref : Ref) : Selection :=
  let step := s.stepAt ref
  let batcher := s.getBatcher args.worker step.family
  let chosen :=
    { selection with bestStep := some ref, maxBatchSize := batcher.maxBatchSize }
  if !batcher.batchedArgs.isEmpty && step.batchable then
    if batcher.batchedArgs.all fun name => step.params.contains name then
      { chosen with
        batchedParams := some (batcher.batchedArgs.foldl
          (fun current name => current.set name [step.params.get? name]) ∅)
        unbatchedParams := batcher.batchedArgs.foldl Dict.erase step.params
        batchedSteps := selection.batchedSteps ++ [ref] }
    else { chosen with batchedParams := none, unbatchedParams := ∅ }
  else chosen

/-- The body of the ranked loop. -/
def considerStep (used : Resources) (selection : Selection) (ref : Ref) : Selection :=
  match selection.bestStep with
  | some best => s.extendBatch best selection ref
  | none =>
    let selection := s.reserveRunning selection ref
    let step := s.stepAt ref
    if s.schedulable ref && s.hasResources step.resources selection.greedyResources then
      let inWorkers := (args.assistant && step.runnable) || decide (args.worker ∈ step.workers)
      if inWorkers && s.hasResources step.resources used then s.chooseStep args selection ref
      else s.reserveGreedily args selection ref
    else selection

/-- The slots of the workers that asked for work recently. -/
def freeSlots (config : Config) (now : Time) : Dict WorkerId Int :=
  (s.activeWorkers.values.filter fun worker =>
    match worker.lastGetWork with
    | none => false
    | some last => decide (now - config.workerDisconnectDelay < last)).foldl
    (fun slots worker => slots.set worker.id (worker.info.workers.getD 1)) ∅

/-- The steps the ranked loop looks at, the resources in use and the free slots. -/
def relevantSteps (config : Config) (now : Time) :
    List Ref × Resources × Dict WorkerId Int :=
  let worker := s.workerAt args.worker
  if s.paused then ([], ∅, ∅)
  else if worker.isTrivialWorker s then (worker.getSteps s [.pending, .running], ∅, ∅)
  else
    (s.activeStepsByStatus [.pending, .running], s.usedResources, s.freeSlots config now)

/-- The ranked loop. -/
def selectWork (config : Config) (now : Time) (lost : Option Ref) : Selection :=
  let (relevant, used, slots) := s.relevantSteps args config now
  (s.sortByRankReverse relevant).foldl (s.considerStep args used)
    { bestStep := lost, greedyWorkers := slots }

end Scheduler

/-! ## Handing out -/

/-- A value of `step_params`: of one step, or of the members of a batch. -/
inductive ParamValue where
  | single (value : String)
  | batched (values : List (Option String))
  deriving DecidableEq

/-- What `get_work` hands out. -/
inductive Work where
  | nothing
  | single (stepId : StepId) (family : Family) (module : Option String) (params : Params)
  | batch (batchId : BatchId) (stepIds : List StepId) (family : Family)
      (module : Option String) (params : Dict String ParamValue)
  deriving DecidableEq

structure Reply where
  pending : PendingReply
  work : Work
  deriving DecidableEq

def combineParams (params : Params) (batched : Dict String (List (Option String))) :
    Dict String ParamValue :=
  batched.entries.foldl (fun current entry => current.set entry.1 (.batched entry.2))
    (params.entries.foldl (fun current entry => current.set entry.1 (.single entry.2)) ∅)

/-- The scheduler's configuration and the hash that names batches. -/
structure Env where
  config : Config := {}
  /-- `hashlib.new('md5', string).hexdigest()`. -/
  md5Hex : String → String

def Env.batchId (env : Env) (stepIds : List StepId) : BatchId :=
  env.md5Hex ("|".intercalate stepIds)

/-- Reserve the members of a batch. -/
def handOutBatch (env : Env) (now : Time) (worker : WorkerId) (selection : Selection)
    (best : Ref) (pending : PendingReply) : SchedulerM Reply := do
  let s ← get
  let stepIds := selection.batchedSteps.map fun ref => (s.stepAt ref).id
  selection.batchedSteps.forM (setBatchRunning now (env.batchId stepIds) worker)
  let s ← get
  let step := s.stepAt best
  pure ⟨pending, .batch (env.batchId stepIds) stepIds step.family step.module
    (combineParams step.params (selection.batchedParams.getD ∅))⟩

/-- Start the chosen step. -/
def handOutStep (env : Env) (now : Time) (worker : WorkerId) (best : Ref)
    (pending : PendingReply) : SchedulerM Reply := do
  setStatus now best .running (some env.config)
  modify fun s => s.updateStep best fun step =>
    { step with
      workerRunning := some worker
      resourcesRunning := some step.resources
      resourcesShared := false
      timeRunning := some now }
  let s ← get
  let step := s.stepAt best
  pure ⟨pending, .single step.id step.family step.module step.params⟩

def handOut (env : Env) (now : Time) (worker : WorkerId) (selection : Selection)
    (pending : PendingReply) : SchedulerM Reply :=
  match selection.bestStep with
  | none => pure ⟨pending, .nothing⟩
  | some best =>
    if 1 < selection.batchedSteps.length then
      handOutBatch env now worker selection best pending
    else handOutStep env now worker best pending

/-- `get_work` up to the ranked loop: the worker may turn out to be an assistant,
it may have lost a step, and its unclaimed batch steps go back in the pool. -/
def prepareWork (now : Time) (args : GetWorkArgs) : SchedulerM (Option Ref) := do
  modify fun s =>
    if args.assistant then
      s.updateWorkerAt args.worker fun worker =>
        { worker with info := worker.info.update { assistant := some true } }
    else s
  let s ← get
  let lost := s.lostStep args
  match args.currentSteps with
  | none => pure ()
  | some _ => resetOrphanedBatchRunningSteps now args.worker
  pure lost

/-- `get_work` for an enabled worker. -/
def findWork (env : Env) (moment : Moment) (args : GetWorkArgs) : SchedulerM Reply := do
  let lost ← prepareWork moment.now args
  let s ← get
  let selection := s.selectWork args env.config moment.now lost
  let pending ← countPending moment args.worker
  handOut env moment.now args.worker selection pending

/-- The beginning of `get_work`. -/
def receiveRequest (env : Env) (moment : Moment) (args : GetWorkArgs) : SchedulerM Unit := do
  if env.config.pruneOnGetWork then prune env.config moment.now else pure ()
  modify fun s => s.updateWorker moment.now args.worker true

def getWork (env : Env) (moment : Moment) (args : GetWorkArgs) : SchedulerM Reply := do
  receiveRequest env moment args
  let s ← get
  let worker := s.workerAt args.worker
  if worker.enabled then findWork env moment args
  else pure ⟨{ workerState := worker.state }, .nothing⟩

end Trun
