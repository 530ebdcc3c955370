import Mathlib.Data.Finset.Basic
import Mathlib.Data.Finset.SDiff
import Trun.Python.Dict
import Trun.Python.OrderedSet
import Trun.Program.Contract

/-!
# The scheduler's data

The records of `scheduler.py`: steps, workers, and the tables that connect
them.  `Step` objects are shared (`_steps`, the status buckets and every
`Worker.steps` hold references to the same object, and a reference outlives the
removal of its step), so they live in a heap and the tables hold references.

Times are ticks of the clock; the code only adds, subtracts and compares them.
Left out are the fields no modelled function reads: message responses, the
public and hidden halves of the parameters, and a worker's host and start time.
-/

namespace Trun

abbrev Time := Int
abbrev StepId := String
abbrev Family := String
abbrev BatchId := String

/-- Resource names with amounts. -/
abbrev Resources := Dict String Int

/-- Parameter names with serialized values. -/
abbrev Params := Dict String String

/-- A worker id.  `Worker.__init__` replaces an empty id by a generated one, so
the truth value of an optional id is whether it is present. -/
structure WorkerId where
  name : String
  nonempty : name ≠ ""
  deriving DecidableEq

/-- Reference to a `Step` object. -/
abbrev Ref := ℕ

inductive Status where
  | pending
  | failed
  | done
  | running
  | batchRunning
  | suspended
  | unknown
  | disabled
  deriving DecidableEq, Repr

/-- `status in (RUNNING, BATCH_RUNNING)`. -/
def Status.isRunning : Status → Bool
  | .running | .batchRunning => true
  | _ => false

theorem Status.isRunning_iff {status : Status} :
    status.isRunning = true ↔ status = .running ∨ status = .batchRunning := by
  cases status <;> decide

structure RetryPolicy where
  retryCount : Int
  disableHardTimeout : Int
  disableWindow : Int
  deriving DecidableEq, Inhabited

/-- An entry in the history of a step's failures. -/
inductive Mark where
  /-- `add_failure`, with the policy in force. -/
  | failed (time : Time) (policy : RetryPolicy)
  /-- The end of the `set_status` that added the failure before, with the status,
  `scheduler_disable_time` and `retry` it leaves. -/
  | ended (status : Status) (disabled retry : Option Time)
  /-- `clear_failures`. -/
  | cleared
  deriving DecidableEq

/-- The removal time stamp of a step.  The code stores `due` only.  Which of its
two writers set the stamp (`set_status` for the combined step of a failed batch,
or `update_status`) is a history variable that no function reads. -/
structure Removal where
  due : Time
  failedBatch : Bool
  deriving DecidableEq

structure Step where
  id : StepId
  stakeholders : Finset WorkerId := ∅
  workers : OrderedSet WorkerId := ∅
  deps : OrderedSet StepId := ∅
  status : Status
  time : Time
  updated : Time
  retry : Option Time := none
  remove : Option Removal := none
  workerRunning : Option WorkerId := none
  timeRunning : Option Time := none
  expl : Option String := none
  priority : Int := 0
  resources : Resources := ∅
  /-- Absent until the step has been handed out. -/
  resourcesRunning : Option Resources := none
  /-- Whether `resources_running` is the same dictionary object as `resources`. -/
  resourcesShared : Bool := false
  family : Family := ""
  module : Option String := none
  params : Params := ∅
  acceptsMessages : Bool := false
  retryPolicy : RetryPolicy
  failures : List Time := []
  firstFailureTime : Option Time := none
  trackingUrl : Option String := none
  statusMessage : Option String := none
  progressPercentage : Option Int := none
  schedulerDisableTime : Option Time := none
  runnable : Bool := false
  batchable : Bool := false
  batchId : Option BatchId := none
  /-- A history variable that no function reads. -/
  marks : List Mark := []
  deriving DecidableEq

instance : Inhabited Step where
  default := { id := "", status := .unknown, time := 0, updated := 0, retryPolicy := default }

/-- The entries of `Worker.info` that the scheduler reads. -/
structure WorkerInfo where
  assistant : Option Bool := none
  workers : Option Int := none
  deriving DecidableEq, Inhabited

/-- `Worker.add_info`: given entries overwrite. -/
def WorkerInfo.update (info new : WorkerInfo) : WorkerInfo where
  assistant := new.assistant <|> info.assistant
  workers := new.workers <|> info.workers

inductive WorkerState where
  | disabled
  | active
  deriving DecidableEq

structure Worker where
  id : WorkerId
  lastActive : Time
  lastGetWork : Option Time := none
  /-- References to the steps the worker scheduled. -/
  steps : OrderedSet Ref := ∅
  info : WorkerInfo := {}
  disabled : Bool := false
  deriving DecidableEq

namespace Worker

def assistant (worker : Worker) : Bool := worker.info.assistant.getD false
def enabled (worker : Worker) : Bool := !worker.disabled
def state (worker : Worker) : WorkerState :=
  if worker.enabled then .active else .disabled

end Worker

/-- The batched parameter names of a family and its largest batch, `none` for
an unbounded one. -/
structure Batcher where
  batchedArgs : List String
  maxBatchSize : Option ℕ
  deriving DecidableEq

/-- The options of the `[scheduler]` section that the modelled functions read. -/
structure Config where
  retryDelay : Time := 900
  removeDelay : Time := 600
  workerDisconnectDelay : Time := 60
  disablePersist : Time := 86400
  disableWindow : Int := 3600
  retryCount : Int := 999999999
  disableHardTimeout : Int := 999999999
  stableDoneCooldownSecs : Time := 10
  pruneOnGetWork : Bool := false
  pauseEnabled : Bool := true
  deriving DecidableEq

def Config.retryPolicy (config : Config) : RetryPolicy where
  retryCount := config.retryCount
  disableHardTimeout := config.disableHardTimeout
  disableWindow := config.disableWindow

/-- The instant at which a request is served, and the orders in which builtin
sets of step ids and of steps come out while it is. -/
structure Moment where
  now : Time
  idOrder : HashOrder StepId := .insertion
  refOrder : HashOrder Ref := .insertion

/-- What `dump` pickles: one object graph, so shared references stay shared. -/
structure SavedState where
  heap : Dict Ref Step
  nextRef : Ref
  steps : Dict StepId Ref
  activeWorkers : Dict WorkerId Worker
  stepBatchers : Dict WorkerId (Dict Family Batcher)
  deriving DecidableEq

/-- The mutable part of a `Scheduler` with its `SimpleStepState`. -/
structure Scheduler where
  /-- The `Step` objects ever created, and the next free reference. -/
  heap : Dict Ref Step := ∅
  nextRef : Ref := 0
  steps : Dict StepId Ref := ∅
  statusSteps : Dict Status (Dict StepId Ref) := ∅
  activeWorkers : Dict WorkerId Worker := ∅
  stepBatchers : Dict WorkerId (Dict Family Batcher) := ∅
  resources : Resources := ∅
  paused : Bool := false
  /-- The contents of the state file. -/
  saved : Option SavedState := none
  deriving DecidableEq

/-- The places where a request handler can raise. -/
inductive Raised where
  /-- `KeyError` of `_status_steps[status].pop(id)`. -/
  | statusBucket
  /-- `KeyError` of `_steps.pop(id)`. -/
  | stepTable
  /-- `KeyError` of `upstream_status_table[dep_id]`. -/
  | upstreamTable
  /-- `KeyError` of `OrderedSet.peek`. -/
  | emptySet
  /-- `IndexError` of `batch_steps[0]`. -/
  | noBatchSteps
  /-- `AttributeError` of a missing `resources_running` or `config`. -/
  | missingAttribute
  /-- `AssertionError` of `config is not None`. -/
  | noConfig
  /-- `TypeError` of an operation on `None`. -/
  | noneValue
  /-- `RecursionError`, or a loop that exceeds its bound. -/
  | recursionLimit
  deriving DecidableEq

abbrev SchedulerM := Program Raised Scheduler

end Trun
