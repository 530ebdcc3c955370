import Trun.Python.Nested
import Trun.Scheduler.Service
import Trun.Worker.Children

/-!
# Steps as the worker sees them

The methods and attributes of the steps, which users write, and what
`StepProcess.run` makes of them.  A step is known by its id.  The methods read
a world, which only `run` changes: everything outside of the worker and its
scheduler, such as the files that targets stand for.

Events and mails are left out, and so are the parts of `StepProcess` that only
matter in a process of its own.
-/

namespace Trun

/-- A target, as `str` shows it. -/
abbrev Target := String

/-- What `output` returns, with `None` for no target. -/
abbrev Output := Nested (Option Target)

/-- The exceptions that a step can end in. -/
inductive Failure where
  /-- Raised by a method of the step. -/
  | user (text : String)
  /-- Raised where something that is not iterable is iterated. -/
  | notIterable
  /-- Raised where something that is not a target is asked whether it exists. -/
  | notATarget
  /-- `RuntimeError` of unfulfilled dependencies. -/
  | unfulfilled (text : String)
  /-- `StepException` of a step that is not complete after its run. -/
  | stillIncomplete
  deriving DecidableEq

/-- What `complete` comes back with. -/
inductive Completion where
  /-- A value that equals `True` or `False`. -/
  | answers (value : Bool)
  /-- Any other value, with its truth value. -/
  | other (truth : Bool)
  | raises (failure : Failure)
  deriving DecidableEq

/-- The truth value of what `complete` returns. -/
def Completion.truth : Completion → Except Failure Bool
  | .answers value => .ok value
  | .other truth => .ok truth
  | .raises failure => .error failure

/-- The value is true, and so goes into the completion cache. -/
def Completion.isTrue : Completion → Bool
  | .answers value => value
  | .other truth => truth
  | .raises _ => false

/-- The ids of the steps with an entry in the completion cache. -/
abbrev CompletionCache := List StepId

/-- `complete_fn`, which may add to the completion cache. -/
abbrev CompleteFn := CompletionCache → StepId → Except Failure Bool × CompletionCache

/-- The `all` of the default completeness check. -/
def allComplete (completeFn : CompleteFn) (cache : CompletionCache) :
    List StepId → Except Failure Bool × CompletionCache
  | [] => (.ok true, cache)
  | id :: rest =>
    match completeFn cache id with
    | (.ok true, cache) => allComplete completeFn cache rest
    | other => other

/-- A call of `custom_complete`, which asks `complete_fn` about steps before it answers. -/
inductive Inquiry where
  | answers (answer : Except Failure Bool)
  | asks (id : StepId) (resume : Except Failure Bool → Inquiry)

def Inquiry.answer (completeFn : CompleteFn) (cache : CompletionCache) :
    Inquiry → Except Failure Bool × CompletionCache
  | .answers answer => (answer, cache)
  | .asks id resume =>
    let (isComplete, cache) := completeFn cache id
    (resume isComplete).answer completeFn cache

/-- What `run` yields. -/
structure DynamicRequirements where
  requirements : Nested StepId
  customComplete : Option Inquiry := none

def DynamicRequirements.complete (requires : DynamicRequirements) (completeFn : CompleteFn)
    (cache : CompletionCache) : Except Failure Bool × CompletionCache :=
  match requires.customComplete with
  | some custom => custom.answer completeFn cache
  | none => allComplete completeFn cache requires.requirements.flatten

/-- A call of `run`, with the world that it leaves wherever it gives up control.  A method
that is no generator yields nothing. -/
inductive Generator (σ : Type) where
  | returns (world : σ)
  | raises (world : σ) (failure : Failure)
  | yields (world : σ) (requires : DynamicRequirements) (resume : Output → Generator σ)

inductive RunEnd where
  | returned
  | raised (failure : Failure)
  /-- The requirements of the last yield are not complete. -/
  | suspended (requirements : Nested StepId)

/-- A call of `run`: what it yielded and got back, how it ended, and the world it left.  No
function reads it. -/
structure Run (σ : Type) where
  stepId : StepId
  exchanges : List (Nested StepId × Output)
  ending : RunEnd
  world : σ

/-- Why `load_step` failed. -/
inductive LoadError where
  /-- `StepClassException`. -/
  | stepClass (trace : String)
  | other (trace : String)
  deriving DecidableEq

def LoadError.trace : LoadError → String
  | .stepClass trace | .other trace => trace

/-- The attributes and methods of the steps, by their ids. -/
structure StepCode (σ : Type) where
  family : StepId → Family
  module : StepId → Option String
  /-- `to_str_params`. -/
  params : StepId → Params
  priority : StepId → Int
  /-- `process_resources`. -/
  resources : StepId → Resources
  batchable : StepId → Bool
  batchParamNames : StepId → List String
  maxBatchSize : StepId → Option ℕ
  retryPolicy : StepId → RetryPolicyArgs
  acceptsMessages : StepId → Bool
  disabled : StepId → Bool
  /-- `run` is `None` or `NotImplemented`. -/
  external : StepId → Bool
  complete : StepId → σ → Completion
  /-- `requires`, in which a step may be missing. -/
  requires : StepId → σ → Except Failure (Nested (Option StepId))
  run : StepId → σ → Generator σ
  output : StepId → Output
  targetExists : Target → σ → Except Failure Bool
  /-- `on_success`, as `json.dumps` shows what it returns. -/
  onSuccess : StepId → Except Failure String
  /-- `on_failure`, as `json.dumps` shows what it returns. -/
  onFailure : StepId → Failure → String
  /-- `load_step`. -/
  load : Option String → Family → Dict String ParamValue → Except LoadError StepId

/-- The options of the `[worker]` section that the modelled functions read. -/
structure WorkerConfig where
  keepAlive : Bool := false
  countUniques : Bool := false
  countLastScheduled : Bool := false
  maxKeepAliveIdleDuration : Time := 0
  maxReschedules : ℕ := 1
  stepLimit : Option Int := none
  retryExternalSteps : Bool := false
  checkUnfulfilledDeps : Bool := true
  checkCompleteOnRun : Bool := false
  cacheStepCompletion : Bool := false
  deriving DecidableEq

namespace StepCode

variable {σ : Type} (code : StepCode σ)

/-- `deps`: the flattened requirements, from which `flatten` leaves out what is `None`. -/
def deps (id : StepId) (world : σ) : Except Failure (List StepId) :=
  (code.requires id world).map fun required => required.flatten.reduceOption

/-- `check_complete_cached`, with the cache afterwards.  There is a cache only where it is
configured. -/
def checkCompleteCached (config : WorkerConfig) (world : σ) (cache : CompletionCache)
    (id : StepId) : Completion × CompletionCache :=
  if config.cacheStepCompletion && cache.contains id then (.answers true, cache)
  else
    let isComplete := code.complete id world
    (isComplete, if config.cacheStepCompletion && isComplete.isTrue then id :: cache else cache)

/-- `check_complete` of a step process. -/
def checkComplete (config : WorkerConfig) (world : σ) : CompleteFn := fun cache id =>
  let checked := code.checkCompleteCached config world cache id
  (checked.1.truth, checked.2)

def getpaths (requirements : Nested StepId) : Output := requirements.bind code.output

/-! ## Dependencies at run time -/

/-- `[output for output in outputs if not output.exists()]`. -/
def absentTargets (world : σ) : List Output → Except Failure (List Target)
  | [] => .ok []
  | .item (some target) :: rest =>
    match code.targetExists target world with
    | .error failure => .error failure
    | .ok found =>
      match absentTargets world rest with
      | .error failure => .error failure
      | .ok absent => .ok (if found then absent else target :: absent)
  | _ :: _ => .error .notATarget

/-- `nonexistent_outputs`, for which the output itself is iterated. -/
def nonexistentOutputs (world : σ) (id : StepId) : Except Failure (List Target) :=
  match code.output id with
  | .item _ => .error .notIterable
  | .list parts | .tuple parts => code.absentTargets world parts
  | .dict [] => .ok []
  | .dict (_ :: _) => .error .notATarget

def missingEntry (id : StepId) : List Target → String
  | [] => id
  | outputs => id ++ " (" ++ ", ".intercalate outputs ++ ")"

/-- The loop over the dependencies in `StepProcess.run`: `missing` as far as it got, the
exception that ended it, and the cache. -/
def findMissing (config : WorkerConfig) (world : σ) (cache : CompletionCache) :
    List StepId → List String × Option Failure × CompletionCache
  | [] => ([], none, cache)
  | dep :: rest =>
    match code.checkComplete config world cache dep with
    | (.error failure, cache) => ([], some failure, cache)
    | (.ok true, cache) => findMissing config world cache rest
    | (.ok false, cache) =>
      match code.nonexistentOutputs world dep with
      | .error failure => ([], some failure, cache)
      | .ok outputs =>
        let (missing, ending) := findMissing config world cache rest
        (missingEntry dep outputs :: missing, ending)

/-- The `RuntimeError` of unfulfilled dependencies. -/
def unfulfilledError (missing : List String) : Failure :=
  let deps := if missing.length = 1 then "dependency" else "dependencies"
  .unfulfilled (s!"Unfulfilled {deps} at run time: " ++ ", ".intercalate missing)

/-- `missing`, the exception that the check of the dependencies ends in, and the cache. -/
def checkDeps (config : WorkerConfig) (id : StepId) (world : σ) (cache : CompletionCache) :
    List String × Option Failure × CompletionCache :=
  if config.checkUnfulfilledDeps && !code.external id then
    match code.deps id world with
    | .error failure => ([], some failure, cache)
    | .ok deps =>
      match code.findMissing config world cache deps with
      | ([], none, cache) => ([], none, cache)
      | (missing, none, cache) => (missing, some (unfulfilledError missing), cache)
      | (missing, some failure, cache) => (missing, some failure, cache)
  else ([], none, cache)

/-! ## The run -/

/-- The loop of `_run_get_new_deps`. -/
def followGenerator (config : WorkerConfig) (cache : CompletionCache) :
    Generator σ → σ × CompletionCache × List (Nested StepId × Output) × RunEnd
  | .returns world => (world, cache, [], .returned)
  | .raises world failure => (world, cache, [], .raised failure)
  | .yields world requires resume =>
    match requires.complete (code.checkComplete config world) cache with
    | (.error failure, cache) => (world, cache, [], .raised failure)
    | (.ok false, cache) => (world, cache, [], .suspended requires.requirements)
    | (.ok true, cache) =>
      let paths := code.getpaths requires.requirements
      let (last, cache, exchanges, ending) := followGenerator config cache (resume paths)
      (last, cache, (requires.requirements, paths) :: exchanges, ending)

def runGetNewDeps (config : WorkerConfig) (id : StepId) (world : σ) (cache : CompletionCache) :
    σ × CompletionCache × Run σ :=
  let (last, cache, exchanges, ending) := code.followGenerator config cache (code.run id world)
  (last, cache, ⟨id, exchanges, ending, last⟩)

def newDeps : RunEnd → List (Option String × Family × Params)
  | .suspended requirements =>
      requirements.flatten.map fun id => (code.module id, code.family id, code.params id)
  | _ => []

/-- What is put on the queue for a step that failed. -/
def failedResult (id : StepId) (failure : Failure) (missing : List String) : StepResult where
  stepId := id
  status := .failed
  expl := code.onFailure id failure
  missing := missing

/-- The result of a step that is done, unless `on_success` raises. -/
def successResult (id : StepId) : StepResult :=
  match code.onSuccess id with
  | .error failure => code.failedResult id failure []
  | .ok expl => { stepId := id, status := .done, expl := expl }

/-- The result of a step that ran without an exception and has no new requirements. -/
def doneResult (config : WorkerConfig) (id : StepId) (world : σ) (cache : CompletionCache) :
    StepResult × CompletionCache :=
  if config.checkCompleteOnRun then
    match code.checkComplete config world cache id with
    | (.error failure, cache) => (code.failedResult id failure [], cache)
    | (.ok false, cache) => (code.failedResult id .stillIncomplete [], cache)
    | (.ok true, cache) => (code.successResult id, cache)
  else (code.successResult id, if config.cacheStepCompletion then id :: cache else cache)

def externalResult (config : WorkerConfig) (id : StepId) (world : σ) (cache : CompletionCache) :
    StepResult × CompletionCache :=
  match code.checkComplete config world cache id with
  | (.error failure, cache) => (code.failedResult id failure [], cache)
  | (.ok false, cache) =>
      ({ stepId := id
         status := .failed
         expl := "\"Step is an external data dependency and data does not exist (yet?).\"" }, cache)
  | (.ok true, cache) => (code.successResult id, cache)

def runResult (config : WorkerConfig) (id : StepId) (world : σ) (cache : CompletionCache)
    (ending : RunEnd) : StepResult × CompletionCache :=
  match ending with
  | .raised failure => (code.failedResult id failure [], cache)
  | ending =>
    if (code.newDeps ending).isEmpty then code.doneResult config id world cache
    else
      ({ stepId := id, status := .pending, expl := "\"\"", newDeps := code.newDeps ending }, cache)

/-- What is left when a step process ends. -/
structure Processed (σ : Type) where
  world : σ
  cache : CompletionCache
  /-- The call of `run`, if there was one. -/
  run : Option (Run σ)
  /-- What is put on the queue. -/
  result : StepResult

/-- `StepProcess.run`. -/
def process (config : WorkerConfig) (id : StepId) (world : σ) (cache : CompletionCache) :
    Processed σ :=
  match code.checkDeps config id world cache with
  | (missing, some failure, cache) =>
      ⟨world, cache, none, code.failedResult id failure missing⟩
  | (_, none, cache) =>
    if code.external id then
      let (result, cache) := code.externalResult config id world cache
      ⟨world, cache, none, result⟩
    else
      let (last, cache, run) := code.runGetNewDeps config id world cache
      let (result, cache) := code.runResult config id last cache run.ending
      ⟨last, cache, some run, result⟩

end StepCode

end Trun
