import Trun.Scheduler.State

/-!
# Pruning

`Scheduler.prune`: workers that were silent for too long are removed, the steps
they were running fail, and steps whose removal stamp is due leave the state.
-/

namespace Trun

def Worker.prune (worker : Worker) (config : Config) (now : Time) : Bool :=
  decide (worker.lastActive + config.workerDisconnectDelay < now)

def Scheduler.pruneWorkers (config : Config) (now : Time) (s : Scheduler) : Scheduler :=
  s.inactivateWorkers
    ((s.activeWorkers.values.filter fun worker => worker.prune config now).map Worker.id)

/-- The test of `fail_dead_worker_step`. -/
def Step.runByDead (step : Step) (assistants : List WorkerId) : Bool :=
  match step.workerRunning with
  | none => false
  | some owner =>
      step.status.isRunning && decide (owner ∉ step.stakeholders) &&
        decide (owner ∉ assistants)

def failDeadWorkerStep (config : Config) (now : Time) (assistants : List WorkerId)
    (ref : Ref) : SchedulerM Unit := do
  let s ← get
  if (s.stepAt ref).runByDead assistants then do
    modify fun s => s.updateStep ref fun step => { step with workerRunning := none }
    setStatus now ref .failed (some config)
    modify fun s => s.updateStep ref fun step =>
      { step with retry := some (now + config.retryDelay) }
  else pure ()

/-- `update_status` marks steps without stakeholders for deletion. -/
def Step.stampUnneeded (step : Step) (config : Config) (now : Time) : Step :=
  if step.stakeholders = ∅ ∧ step.remove = none ∧ step.status ≠ .running then
    { step with remove := some ⟨now + config.removeDelay, false⟩ }
  else step

/-- `update_status` re-enables a step when the disable time has expired. -/
def reEnableExpired (config : Config) (now : Time) (ref : Ref) : SchedulerM Unit := do
  let s ← get
  match (s.stepAt ref).status, (s.stepAt ref).schedulerDisableTime with
  | .disabled, some disabled =>
      if config.disablePersist < now - disabled then reEnable config now ref else pure ()
  | _, _ => pure ()

/-- `update_status` resets failed steps after the retry delay. -/
def retryFailed (config : Config) (now : Time) (ref : Ref) : SchedulerM Unit := do
  let s ← get
  if (s.stepAt ref).status = .failed ∧ 0 ≤ config.retryDelay then
    match (s.stepAt ref).retry with
    | none => throw .noneValue
    | some retry =>
        if retry < now then setStatus now ref .pending (some config) else pure ()
  else pure ()

def updateStatus (config : Config) (now : Time) (ref : Ref) : SchedulerM Unit := do
  modify fun s => s.updateStep ref fun step => step.stampUnneeded config now
  reEnableExpired config now ref
  retryFailed config now ref

/-- The loop of `_prune_steps`, which returns the ids to remove. -/
def visitSteps (config : Config) (now : Time) (assistants : List WorkerId) :
    List Ref → SchedulerM (List StepId)
  | [] => pure []
  | ref :: rest => do
      failDeadWorkerStep config now assistants ref
      updateStatus config now ref
      let s ← get
      let others ← visitSteps config now assistants rest
      pure (if (s.stepAt ref).mayPrune now then (s.stepAt ref).id :: others else others)

/-- One round of `inactivate_steps`. -/
def inactivateStep (id : StepId) : SchedulerM Unit := do
  let s ← get
  match s.steps.get? id with
  | none => throw .stepTable
  | some ref => do
      modify fun s => { s with steps := s.steps.erase id }
      if (s.bucket (s.stepAt ref).status).contains id then
        modify fun s =>
          { s with
            statusSteps := s.statusSteps.modify (s.stepAt ref).status ∅ (·.erase id) }
      else throw .statusBucket

def inactivateSteps (ids : List StepId) : SchedulerM Unit := ids.forM inactivateStep

def pruneSteps (config : Config) (now : Time) : SchedulerM Unit := do
  let s ← get
  let removed ← visitSteps config now s.assistants s.activeSteps
  inactivateSteps removed

def prune (config : Config) (now : Time) : SchedulerM Unit := do
  modify fun s => s.pruneWorkers config now
  pruneSteps config now

end Trun
