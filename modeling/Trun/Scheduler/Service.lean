import Trun.Program.Runs
import Trun.Scheduler.GetWork

/-!
# Requests and runs

The remaining request handlers of `Scheduler`, the type of all modelled
requests, and the states that sequences of requests lead to.
-/

namespace Trun

/-! ## The other handlers -/

def forgiveFailures (config : Config) (now : Time) (id : StepId) : SchedulerM Unit := do
  let s ← get
  match s.getStep id with
  | none => pure ()
  | some ref =>
    if (s.stepAt ref).status = .failed then setStatus now ref .pending (some config)
    else pure ()

/-- `status in {RUNNING, FAILED, DISABLED}` in `mark_as_done`. -/
def Status.canBeMarkedDone : Status → Bool
  | .running | .failed | .disabled => true
  | _ => false

def markAsDone (config : Config) (now : Time) (id : StepId) : SchedulerM Unit := do
  let s ← get
  match s.getStep id with
  | none => pure ()
  | some ref =>
    if (s.stepAt ref).status.canBeMarkedDone then setStatus now ref .done (some config)
    else pure ()

/-- The truth value of `step.scheduler_disable_time`. -/
def Step.disabledByScheduler (step : Step) : Bool :=
  match step.schedulerDisableTime with
  | none => false
  | some disabled => disabled != 0

def reEnableStep (config : Config) (now : Time) (id : StepId) : SchedulerM Unit := do
  let s ← get
  match s.getStep id with
  | none => pure ()
  | some ref =>
    if (s.stepAt ref).status = .disabled ∧ (s.stepAt ref).disabledByScheduler then
      reEnable config now ref
    else pure ()

/-- `decrease` on one dictionary. -/
def decreaseResources (resources amounts : Resources) : Resources :=
  amounts.entries.foldl
    (fun current entry =>
      if 0 < entry.2 ∧ current.contains entry.1 then
        current.modify entry.1 0 fun amount => max 0 (amount - entry.2)
      else current) resources

/-- `decrease(step.resources_running, amounts)`, which also reaches
`step.resources` where the two are one object. -/
def decreaseStep (amounts : Resources) (ref : Ref) : SchedulerM Unit := do
  let s ← get
  match (s.stepAt ref).resourcesRunning with
  | none => throw .missingAttribute
  | some running =>
      modify fun s => s.updateStep ref fun step =>
        { step with
          resourcesRunning := some (decreaseResources running amounts)
          resources :=
            if step.resourcesShared then decreaseResources running amounts
            else step.resources }

def decreaseRunningStepResources (id : StepId) (amounts : Resources) : SchedulerM Unit := do
  let s ← get
  match s.getStep id with
  | none => pure ()
  | some ref =>
    if (s.stepAt ref).status = .running then do
      decreaseStep amounts ref
      match (s.stepAt ref).batchId with
      | none => pure ()
      | some batchId => (s.batchRunningSteps batchId).forM (decreaseStep amounts)
    else pure ()

/-- A field write on a step and, while it runs, on the members of its batch. -/
def Scheduler.reportToBatch (s : Scheduler) (id : StepId) (change : Step → Step) : Scheduler :=
  match s.getStep id with
  | none => s
  | some ref =>
    if (s.stepAt ref).status = .running then s.updateWithBatch ref change
    else s.updateStep ref change

def Scheduler.setStepStatusMessage (s : Scheduler) (id : StepId) (message : Option String) :
    Scheduler :=
  s.reportToBatch id fun step => { step with statusMessage := message }

def Scheduler.setStepProgressPercentage (s : Scheduler) (id : StepId)
    (percentage : Option Int) : Scheduler :=
  s.reportToBatch id fun step => { step with progressPercentage := percentage }

def Scheduler.addWorker (s : Scheduler) (now : Time) (worker : WorkerId) (info : WorkerInfo) :
    Scheduler :=
  (s.ensureWorker now worker).updateWorkerAt worker fun worker =>
    { worker with info := worker.info.update info }

def Scheduler.addStepBatcher (s : Scheduler) (worker : WorkerId) (family : Family)
    (batcher : Batcher) : Scheduler :=
  { s with
    stepBatchers := s.stepBatchers.modify worker ∅ fun batchers => batchers.set family batcher }

def Scheduler.updateResource (s : Scheduler) (resource : String) (amount : Int) : Scheduler :=
  if amount < 0 then s else { s with resources := s.resources.set resource amount }

/-! ## Requests -/

/-- The requests a scheduler serves. -/
inductive Request where
  | addStep (args : AddStepArgs)
  | getWork (args : GetWorkArgs)
  | countPending (worker : WorkerId)
  | prune
  | ping (worker : WorkerId)
  | addWorker (worker : WorkerId) (info : WorkerInfo)
  | addStepBatcher (worker : WorkerId) (family : Family) (batcher : Batcher)
  | markAsDone (id : StepId)
  | forgiveFailures (id : StepId)
  | reEnableStep (id : StepId)
  | disableWorker (worker : WorkerId)
  | decreaseRunningStepResources (id : StepId) (amounts : Resources)
  | setStepStatusMessage (id : StepId) (message : Option String)
  | setStepProgressPercentage (id : StepId) (percentage : Option Int)
  | updateResources (resources : Resources)
  | updateResource (resource : String) (amount : Int)
  | pause
  | unpause
  | dump
  | load
  deriving DecidableEq

inductive Response where
  | nothing
  | pending (reply : PendingReply)
  | work (reply : Reply)
  deriving DecidableEq

/-- A handler that changes the state and returns nothing of interest. -/
def change (update : Scheduler → Scheduler) : SchedulerM Response := do
  modify update
  pure .nothing

def serve (env : Env) (moment : Moment) : Request → SchedulerM Response
  | .addStep args => do
      addStep env.config moment args
      pure .nothing
  | .getWork args => do
      let reply ← getWork env moment args
      pure (.work reply)
  | .countPending worker => do
      let reply ← countPending moment worker
      pure (.pending reply)
  | .prune => do
      prune env.config moment.now
      pure .nothing
  | .ping worker => change fun s => s.updateWorker moment.now worker false
  | .addWorker worker info => change fun s => s.addWorker moment.now worker info
  | .addStepBatcher worker family batcher =>
      change fun s => s.addStepBatcher worker family batcher
  | .markAsDone id => do
      markAsDone env.config moment.now id
      pure .nothing
  | .forgiveFailures id => do
      forgiveFailures env.config moment.now id
      pure .nothing
  | .reEnableStep id => do
      reEnableStep env.config moment.now id
      pure .nothing
  | .disableWorker worker => change fun s => s.disableWorker moment.now worker
  | .decreaseRunningStepResources id amounts => do
      decreaseRunningStepResources id amounts
      pure .nothing
  | .setStepStatusMessage id message => change fun s => s.setStepStatusMessage id message
  | .setStepProgressPercentage id percentage =>
      change fun s => s.setStepProgressPercentage id percentage
  | .updateResources resources =>
      change fun s => { s with resources := s.resources.update resources }
  | .updateResource resource amount => change fun s => s.updateResource resource amount
  | .pause =>
      change fun s => { s with paused := env.config.pauseEnabled || s.paused }
  | .unpause =>
      change fun s => { s with paused := !env.config.pauseEnabled && s.paused }
  | .dump => change Scheduler.dump
  | .load => change Scheduler.load

/-- A request at the moment it is served. -/
structure Event where
  moment : Moment
  request : Request

namespace Env

variable (env : Env)

/-- The state after a request. -/
def after (s : Scheduler) (event : Event) : Scheduler :=
  (serve env event.moment event.request).final s

/-- What a request returns or raises. -/
def outcome (s : Scheduler) (event : Event) : Except Raised Response :=
  (serve env event.moment event.request).result s

/-- The exception a request ends in, where it does. -/
def raised (s : Scheduler) (event : Event) : Option Raised :=
  match env.outcome s event with
  | .ok _ => none
  | .error error => some error

theorem raised_eq_some (s : Scheduler) (event : Event) (error : Raised) :
    env.raised s event = some error ↔ env.outcome s event = .error error := by
  unfold raised
  cases env.outcome s event <;> simp

/-- The request begins with `prune`. -/
def prunes (event : Event) : Bool :=
  match event.request with
  | .prune => true
  | .getWork _ => env.config.pruneOnGetWork
  | _ => false

/-- The state after a sequence of requests. -/
def run (s : Scheduler) (events : List Event) : Scheduler := runAll env.after s events

end Env

/-- A scheduler without steps and workers. -/
def Scheduler.initial (resources : Resources) : Scheduler := { resources := resources }

/-- The requests come at non-decreasing times. -/
def Timely (events : List Event) : Prop :=
  events.Pairwise fun earlier later => earlier.moment.now ≤ later.moment.now

instance (events : List Event) : Decidable (Timely events) := by
  unfold Timely; infer_instance

end Trun
