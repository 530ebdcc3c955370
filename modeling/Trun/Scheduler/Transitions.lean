import Trun.Scheduler.Allocation
import Trun.Scheduler.IndexRuns

/-!
# What one request does

`Serves` lists what a request may come to, one case for each kind.  Requests that
only report, count or configure share one case: they leave every run and every
tie between steps and workers as they are.
-/

namespace Trun

open Program

namespace Request

/-- Requests that neither start, end nor plan a run. -/
def isQuiet : Request → Bool
  | .countPending _ | .ping _ | .addWorker _ _ | .addStepBatcher _ _ _
  | .decreaseRunningStepResources _ _ | .setStepStatusMessage _ _
  | .setStepProgressPercentage _ _ | .updateResources _ | .updateResource _ _
  | .pause | .unpause => true
  | _ => false

/-- Requests that workers send while they work. -/
def isWorkers : Request → Bool
  | .addStep _ | .getWork _ | .prune => true
  | request => request.isQuiet

end Request

/-- A step without its description, its rank, its stakeholders and its demands. -/
def Step.life (step : Step) : Step :=
  { step.core with resources := ∅, resourcesRunning := none, resourcesShared := false }

theorem Step.life_of_core {a b : Step} (hcore : a.core = b.core) : a.life = b.life := by
  unfold life
  rw [hcore]

namespace Scheduler

variable {s t u : Scheduler}

/-- Runs and ties are as before. -/
structure Rests (s t : Scheduler) : Prop where
  nextRef : t.nextRef = s.nextRef
  steps : t.steps = s.steps
  statusSteps : t.statusSteps = s.statusSteps
  saved : t.saved = s.saved
  life : ∀ ref, (t.stepAt ref).life = (s.stepAt ref).life
  stakeholders : ∀ ref, (t.stepAt ref).stakeholders = (s.stepAt ref).stakeholders
  worker : ∀ id, (t.workerAt id).steps = (s.workerAt id).steps ∧
    (t.workerAt id).disabled = (s.workerAt id).disabled

theorem Rests.refl (s : Scheduler) : Rests s s :=
  ⟨rfl, rfl, rfl, rfl, fun _ => rfl, fun _ => rfl, fun _ => ⟨rfl, rfl⟩⟩

theorem Rests.trans (hst : Rests s t) (htu : Rests t u) : Rests s u where
  nextRef := htu.nextRef.trans hst.nextRef
  steps := htu.steps.trans hst.steps
  statusSteps := htu.statusSteps.trans hst.statusSteps
  saved := htu.saved.trans hst.saved
  life := fun ref => (htu.life ref).trans (hst.life ref)
  stakeholders := fun ref => (htu.stakeholders ref).trans (hst.stakeholders ref)
  worker := fun id => ⟨(htu.worker id).1.trans (hst.worker id).1,
    (htu.worker id).2.trans (hst.worker id).2⟩

theorem Rests.status (hrests : Rests s t) (ref : Ref) :
    (t.stepAt ref).status = (s.stepAt ref).status := (congrArg Step.status (hrests.life ref) :)

theorem Rests.workerRunning (hrests : Rests s t) (ref : Ref) :
    (t.stepAt ref).workerRunning = (s.stepAt ref).workerRunning :=
  (congrArg Step.workerRunning (hrests.life ref) :)

theorem Rests.batchId (hrests : Rests s t) (ref : Ref) :
    (t.stepAt ref).batchId = (s.stepAt ref).batchId :=
  (congrArg Step.batchId (hrests.life ref) :)

theorem Rests.id (hrests : Rests s t) (ref : Ref) :
    (t.stepAt ref).id = (s.stepAt ref).id := (congrArg Step.id (hrests.life ref) :)

theorem Rests.remove (hrests : Rests s t) (ref : Ref) :
    (t.stepAt ref).remove = (s.stepAt ref).remove := (congrArg Step.remove (hrests.life ref) :)

theorem Rests.getStep (hrests : Rests s t) (id : StepId) : t.getStep id = s.getStep id := by
  simp only [Scheduler.getStep, hrests.steps]

theorem Rests.filed (hrests : Rests s t) (ref : Ref) : t.Filed ref ↔ s.Filed ref := by
  unfold Filed
  rw [hrests.getStep, hrests.id]

theorem Greets.rests (hgreets : Greets s t) : Rests s t where
  nextRef := hgreets.nextRef
  steps := hgreets.steps
  statusSteps := hgreets.statusSteps
  saved := hgreets.saved
  life := fun ref => by rw [hgreets.stepAt]
  stakeholders := fun ref => by rw [hgreets.stepAt]
  worker := fun id => ⟨(hgreets.worker id).2.1, (hgreets.worker id).2.2⟩

theorem Describes.rests (hdescribes : Describes s t) : Rests s t where
  nextRef := hdescribes.same.nextRef
  steps := hdescribes.same.steps
  statusSteps := hdescribes.statusSteps
  saved := hdescribes.same.saved
  life := fun ref => Step.life_of_core (hdescribes.core ref)
  stakeholders := hdescribes.stakeholders
  worker := fun id => by rw [hdescribes.same.workerAt]; exact ⟨rfl, rfl⟩

/-- What the quiet handlers promise. -/
def quietContract : Contract Raised Scheduler where
  inv _ := True
  rel := Rests
  allows _ := True
  refl := .refl
  trans := .trans

/-- `decrease_running_step_resources` fulfils every contract that allows it to fail and
to write demands. -/
theorem decreaseRunningStepResources_honours (contract : Contract Raised Scheduler)
    (hinv : ∀ s, contract.inv s) (hallows : ∀ error, contract.allows error)
    (hrel : ∀ (s : Scheduler) (ref : Ref) (change : Step → Step),
      (∀ step, (change step).life = step.life) →
      (∀ step, (change step).stakeholders = step.stakeholders) →
      contract.rel s (s.updateStep ref change))
    (id : StepId) (amounts : Resources) :
    Honours contract (decreaseRunningStepResources id amounts) := by
  have hdecrease : ∀ ref, Honours contract (decreaseStep amounts ref) := by
    intro ref s _
    unfold decreaseStep
    refine .get_bind ?_
    split
    · exact .throw (hinv s) (hallows _)
    · exact .modify (hinv _) (hrel s ref _ (fun _ => rfl) fun _ => rfl)
  intro s _
  unfold decreaseRunningStepResources
  refine .get_bind ?_
  split
  · exact .pure _ (hinv s)
  · refine .ite (fun _ => .bind (hdecrease _ s (hinv s)) fun _ t _ _ => ?_)
      fun _ => .pure _ (hinv s)
    split
    · exact .pure _ (hinv t)
    · exact Honours.forM (fun other _ => hdecrease other) t (hinv t)

theorem rests_updateStep {ref : Ref} {change : Step → Step}
    (hlife : ∀ step, (change step).life = step.life)
    (hstakeholders : ∀ step, (change step).stakeholders = step.stakeholders) :
    Rests s (s.updateStep ref change) := by
  refine ⟨rfl, rfl, rfl, rfl, fun other => ?_, fun other => ?_, fun _ => ⟨rfl, rfl⟩⟩
  · rw [stepAt_updateStep]
    split
    · exact hlife _
    · rfl
  · rw [stepAt_updateStep]
    split
    · exact hstakeholders _
    · rfl

theorem decreaseRunningStepResources_rests (id : StepId) (amounts : Resources) :
    Honours quietContract (decreaseRunningStepResources id amounts) :=
  decreaseRunningStepResources_honours quietContract (fun _ => trivial) (fun _ => trivial)
    (fun _ _ _ => rests_updateStep) id amounts

/-- The quiet requests. -/
theorem rests_after (env : Env) (moment : Moment) {request : Request}
    (hquiet : request.isQuiet = true) : Rests s (env.after s ⟨moment, request⟩) := by
  cases request with
  | countPending worker =>
      obtain ⟨-, hgreets, -⟩ := reply_meets Response.pending (countPending_meets moment worker s)
      exact Greets.rests hgreets
  | ping worker => exact (greets_updateWorker s moment.now worker false).rests
  | addWorker worker info => exact (greets_addWorker s moment.now worker info).rests
  | decreaseRunningStepResources id amounts =>
      obtain ⟨-, hrests, -⟩ := reply_meets (fun _ => Response.nothing)
        (decreaseRunningStepResources_rests id amounts s trivial)
      exact hrests
  | setStepStatusMessage id message =>
      have hdescribes : Describes s (s.setStepStatusMessage id message) :=
        describes_reportToBatch s id (fun _ => rfl) fun _ => rfl
      exact hdescribes.rests
  | setStepProgressPercentage id percentage =>
      have hdescribes : Describes s (s.setStepProgressPercentage id percentage) :=
        describes_reportToBatch s id (fun _ => rfl) fun _ => rfl
      exact hdescribes.rests
  | updateResource resource amount =>
      have hrests : Rests s (s.updateResource resource amount) := by
        unfold updateResource
        split
        · exact .refl s
        · exact ⟨rfl, rfl, rfl, rfl, fun _ => rfl, fun _ => rfl, fun _ => ⟨rfl, rfl⟩⟩
      exact hrests
  | addStepBatcher | updateResources | pause | unpause =>
      exact ⟨rfl, rfl, rfl, rfl, fun _ => rfl, fun _ => rfl, fun _ => ⟨rfl, rfl⟩⟩
  | addStep | getWork | prune | markAsDone | forgiveFailures | reEnableStep | disableWorker
  | dump | load => cases hquiet

/-- What the beginning of `add_step` does. -/
structure Receipt (config : Config) (moment : Moment) (args : AddStepArgs) (s t : Scheduler) :
    Prop where
  stored : t.Stored
  nextRef_le : s.nextRef ≤ t.nextRef
  stepAt : ∀ ref < s.nextRef, t.stepAt ref = s.stepAt ref
  keeps : ∀ {id ref}, s.getStep id = some ref → t.getStep id = some ref
  fresh : ∀ {id ref}, t.getStep id = some ref → s.getStep id = some ref ∨
    (id = args.stepId ∧ s.getStep id = none ∧ ref = s.nextRef ∧
      t.stepAt ref = args.defaultStep config moment)
  resources : t.resources = s.resources
  paused : t.paused = s.paused
  worker : ∀ id, (t.workerAt id).steps = (s.workerAt id).steps ∧
    (t.workerAt id).disabled = (s.workerAt id).disabled

theorem Stored.receipt (hstored : s.Stored) (config : Config) (moment : Moment)
    (args : AddStepArgs) : Receipt config moment args s (s.receiveStep config moment args) := by
  have hgreets := greets_updateWorker s moment.now args.worker false
  set greeted := s.updateWorker moment.now args.worker false with hgreeted
  have hgreetedStored : greeted.Stored := hgreets.stored hstored
  have hsame : Receipt config moment args s greeted := by
    refine ⟨hgreetedStored, le_of_eq hgreets.nextRef.symm, fun ref _ => hgreets.stepAt ref,
      fun h => ?_, fun h => .inl ?_, hgreets.resources, hgreets.paused,
      fun id => ⟨(hgreets.worker id).2.1, (hgreets.worker id).2.2⟩⟩
    · rw [hgreets.getStep]
      exact h
    · rw [← hgreets.getStep]
      exact h
  unfold receiveStep
  dsimp only
  rw [← hgreeted]
  split
  · set step := args.defaultStep config moment with hstep
    cases hget : greeted.getStep step.id with
    | some ref =>
        rw [hgreetedStored.index.setdefaultStep_eq hget]
        exact hsame
    | none =>
        have hsurroundings := sameSurroundings_setdefaultStep greeted step
        refine ⟨hgreetedStored.setdefaultStep step, ?_, fun ref hlt => ?_, fun h => ?_,
          fun h => ?_, ?_, ?_, fun id => ?_⟩
        · rw [nextRef_setdefaultStep hget, hgreets.nextRef]
          exact Nat.le_succ _
        · rw [stepAt_setdefaultStep hget, if_neg, hgreets.stepAt]
          rw [hgreets.nextRef]
          exact Nat.ne_of_lt hlt
        · rw [getStep_setdefaultStep hget, if_neg, hgreets.getStep]
          · exact h
          · rintro rfl
            rw [hgreets.getStep, h] at hget
            cases hget
        · rw [getStep_setdefaultStep hget] at h
          split at h
          · rename_i hid
            obtain rfl := Option.some.inj h
            refine .inr ⟨hid, ?_, hgreets.nextRef, ?_⟩
            · rw [hid, ← hgreets.getStep]
              exact hget
            · rw [stepAt_setdefaultStep hget, if_pos rfl]
          · rw [hgreets.getStep] at h
            exact .inl h
        · exact hsurroundings.resources.trans hgreets.resources
        · exact hsurroundings.paused.trans hgreets.paused
        · rw [workerAt_setdefaultStep]
          exact ⟨(hgreets.worker id).2.1, (hgreets.worker id).2.2⟩
  · exact hsame

theorem Receipt.filed {config : Config} {moment : Moment} {args : AddStepArgs}
    (hreceipt : Receipt config moment args s t) (hstored : s.Stored) {ref : Ref}
    (hfiled : t.Filed ref) :
    s.Filed ref ∨ (ref = s.nextRef ∧ t.stepAt ref = args.defaultStep config moment) := by
  rcases hreceipt.fresh hfiled with hold | ⟨-, -, href, hstep⟩
  · rw [hreceipt.stepAt ref (hstored.allocated hold)] at hold
    exact .inl hold
  · exact .inr ⟨href, hstep⟩

theorem Receipt.enabled {config : Config} {moment : Moment} {args : AddStepArgs}
    (hreceipt : Receipt config moment args s t) (id : WorkerId) :
    (t.workerAt id).enabled = (s.workerAt id).enabled := by
  simp only [Worker.enabled, (hreceipt.worker id).2]

/-- What the requests of workers may come to. -/
inductive Serves (env : Env) (s : Scheduler) : Event → Except Raised Response → Scheduler → Prop
    where
  | adds {moment : Moment} {args : AddStepArgs} {outcome : Except Raised Unit} {t : Scheduler}
      (hadds : AddsStep env.config moment args (s.receiveStep env.config moment args)
        outcome t) :
      Serves env s ⟨moment, .addStep args⟩ (outcome.map fun _ => .nothing) t
  | works {moment : Moment} {args : GetWorkArgs} {outcome : Except Raised Reply}
      {t : Scheduler} (hlooks : env.LooksAtFiledSteps s moment args)
      (hworks : GetsWork env moment args s outcome t) :
      Serves env s ⟨moment, .getWork args⟩ (outcome.map .work) t
  | prunes {moment : Moment} {t : Scheduler}
      (hprunes : Prunes env.config moment.now s t) :
      Serves env s ⟨moment, .prune⟩ (.ok .nothing) t
  | rests {event : Event} {outcome : Except Raised Response} {t : Scheduler}
      (hquiet : event.request.isQuiet = true) (hrests : Rests s t) :
      Serves env s event outcome t

theorem Sound.after_addStep (hsound : s.Sound) (env : Env) (moment : Moment)
    (args : AddStepArgs) :
    ∃ outcome, AddsStep env.config moment args (s.receiveStep env.config moment args) outcome
        (env.after s ⟨moment, .addStep args⟩) ∧
      env.outcome s ⟨moment, .addStep args⟩ = outcome.map fun _ => .nothing := by
  obtain ⟨outcome, t, hrun, hadds⟩ := addStep_spec env.config moment args hsound.stored
  have hserve := exec_reply (fun _ => Response.nothing) hrun
  have hafter : env.after s ⟨moment, .addStep args⟩ = t := congrArg Prod.snd hserve
  have houtcome : env.outcome s ⟨moment, .addStep args⟩ = outcome.map fun _ => .nothing :=
    congrArg Prod.fst hserve
  exact ⟨outcome, hafter ▸ hadds, houtcome⟩

/-- On a sound state that is all. -/
theorem Sound.serves {env : Env} {event : Event} (hsound : s.Sound)
    (hworkers : event.request.isWorkers = true) (hhands : HandsOutFiledSteps env s event) :
    Serves env s event (env.outcome s event) (env.after s event) := by
  obtain ⟨moment, request⟩ := event
  by_cases hquiet : request.isQuiet = true
  · exact .rests hquiet (rests_after env moment hquiet)
  · cases request with
    | addStep args =>
        obtain ⟨outcome, hadds, houtcome⟩ := hsound.after_addStep env moment args
        rw [houtcome]
        exact .adds hadds
    | getWork args =>
        obtain ⟨outcome, hworks, houtcome⟩ := hsound.after_getWork _ _ hhands
        rw [houtcome]
        exact .works hhands hworks
    | prune =>
        obtain ⟨hprunes, houtcome⟩ := hsound.after_prune env moment
        rw [houtcome]
        exact .prunes hprunes
    | _ => exact absurd hworkers hquiet

end Scheduler

end Trun
