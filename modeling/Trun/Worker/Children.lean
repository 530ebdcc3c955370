import Trun.Program.Runs
import Trun.Scheduler.Types

/-!
# The step processes of a worker

A worker with several processes registers every process it starts in
`_running_steps` and learns from its result queue how the process ended.
Processes put their results at any time; `_handle_next_step` is a loop that can
be interrupted by them at every turn, so its position in the loop is part of
the state.
-/

namespace Trun

/-- A process is known by its number among the started ones. -/
abbrev Pid := ℕ

/-- What is put on `_step_result_queue`. -/
structure StepResult where
  stepId : StepId
  status : Status
  expl : String
  missing : List String := []
  newDeps : List (Option String × Family × Params) := []
  deriving DecidableEq

structure StepProcess where
  stepId : StepId
  workerTimeout : Int := 0
  timeoutTime : Option Time := none
  /-- `exitcode`; absent while the process is alive. -/
  exitCode : Option Int := none
  /-- The `finally` block of `run` has put the result. -/
  hasPut : Bool := false
  deriving DecidableEq

namespace StepProcess

def isAlive (process : StepProcess) : Bool := process.exitCode.isNone

/-- `not p.is_alive() and p.exitcode`. -/
def died (process : StepProcess) : Bool :=
  match process.exitCode with
  | none => false
  | some code => code != 0

/-- `p.timeout_time is not None and time.time() > p.timeout_time and p.is_alive()`. -/
def overdue (process : StepProcess) (now : Time) : Bool :=
  match process.timeoutTime with
  | none => false
  | some timeout => decide (timeout < now) && process.isAlive

def ended (process : StepProcess) : Bool := process.hasPut || process.died

end StepProcess

/-- An entry of the result queue, with the process by which or for which it was put. -/
structure QueueEntry where
  result : StepResult
  origin : Pid
  deriving DecidableEq

/-- A result that the worker has reported, with the process registered at that time. -/
structure Report where
  entry : QueueEntry
  process : Pid
  deriving DecidableEq

/-- Where the worker is in `_handle_next_step`. -/
inductive Phase where
  /-- Not in the call. -/
  | away
  /-- In `_purge_children`, with the processes of these steps still to look at. -/
  | purging (left : List StepId)
  /-- Before `_step_result_queue.get`. -/
  | getting
  deriving DecidableEq

/-- A worker's view of its processes. -/
structure Children where
  /-- All that were started, in order. -/
  processes : List StepProcess := []
  /-- `_running_steps`. -/
  running : Dict StepId Pid := ∅
  /-- `_step_result_queue`. -/
  queue : List QueueEntry := []
  /-- What was passed on to the scheduler. -/
  reported : List Report := []
  phase : Phase := .away
  deriving DecidableEq

namespace Children

def updateProcess (c : Children) (pid : Pid) (change : StepProcess → StepProcess) : Children :=
  { c with processes := c.processes.modify pid change }

def put (c : Children) (result : StepResult) (origin : Pid) : Children :=
  { c with queue := c.queue ++ [⟨result, origin⟩] }

/-- `_run_step`: a step that runs already is not started again. -/
def runStep (c : Children) (now : Time) (stepId : StepId) (workerTimeout : Int) : Children :=
  if c.running.contains stepId then c
  else
    { c with
      processes := c.processes ++ [
        { stepId := stepId, workerTimeout := workerTimeout
          timeoutTime := if workerTimeout = 0 then none else some (now + workerTimeout) }]
      running := c.running.set stepId c.processes.length }

/-- The process puts its result, which it does once. -/
def putResult (c : Children) (pid : Pid) (result : StepResult) : Children :=
  match c.processes[pid]? with
  | none => c
  | some process =>
    if process.isAlive && !process.hasPut then
      (c.updateProcess pid fun process => { process with hasPut := true }).put
        { result with stepId := process.stepId } pid
    else c

/-- The process exits.  Without an exit code it has put its result before. -/
def exit (c : Children) (pid : Pid) (code : Int) : Children :=
  match c.processes[pid]? with
  | none => c
  | some process =>
    if process.isAlive && (process.hasPut || code != 0) then
      c.updateProcess pid fun process => { process with exitCode := some code }
    else c

/-- `-SIGTERM`. -/
def terminated : Int := -15

/-- The body of the loop of `_purge_children`. -/
def purgeChild (c : Children) (now : Time) (stepId : StepId) : Children :=
  match c.running.get? stepId with
  | none => c
  | some pid =>
    match c.processes[pid]? with
    | none => c
    | some process =>
      let code := process.exitCode.getD 0
      let timeout := process.workerTimeout
      if process.died then
        c.put
          { stepId := stepId, status := .failed
            expl := s!"Step {stepId} died unexpectedly with exit code {code}" } pid
      else if process.overdue now then
        (c.updateProcess pid fun process => { process with exitCode := some terminated }).put
          { stepId := stepId, status := .failed
            expl := s!"Step {stepId} timed out after {timeout} seconds and was terminated." } pid
      else c

/-- `_step_result_queue.get` and what follows: nothing was put, or an entry for a step that
does not run any more is passed over, or the result is reported. -/
def getResult (c : Children) : Children :=
  match c.queue with
  | [] => { c with phase := .away }
  | entry :: rest =>
    match c.running.get? entry.result.stepId with
    | none => { c with queue := rest, phase := .purging c.running.keys }
    | some pid =>
      { c with
        queue := rest
        reported := c.reported ++ [⟨entry, pid⟩]
        running := c.running.erase entry.result.stepId
        phase := .away }

end Children

/-- What can happen to a worker and its processes. -/
inductive ChildEvent where
  | runStep (now : Time) (stepId : StepId) (workerTimeout : Int)
  | putResult (pid : Pid) (result : StepResult)
  | exit (pid : Pid) (code : Int)
  /-- The worker's next move in `_handle_next_step`, or the call of it. -/
  | handleNextStep (now : Time)
  deriving DecidableEq

namespace Children

/-- One move of `_handle_next_step`. -/
def handle (c : Children) (now : Time) : Children :=
  match c.phase with
  | .away => { c with phase := .purging c.running.keys }
  | .purging [] => { c with phase := .getting }
  | .purging (stepId :: left) => { c.purgeChild now stepId with phase := .purging left }
  | .getting => c.getResult

/-- The state after an event.  The worker starts no process while it handles results. -/
def after (c : Children) : ChildEvent → Children
  | .runStep now stepId workerTimeout =>
      if c.phase = .away then c.runStep now stepId workerTimeout else c
  | .putResult pid result => c.putResult pid result
  | .exit pid code => c.exit pid code
  | .handleNextStep now => c.handle now

end Children

end Trun
