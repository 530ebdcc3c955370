import Trun.Scheduler.Handling
import Trun.Scheduler.Eligibility
import Trun.Scheduler.Owners

/-!
# Runs of dead workers

`prune` fails a run where the recorded owner is neither a stakeholder of the step nor an
assistant.  That is the death of the owner as long as every run that starts has such an
owner.
-/

namespace Trun

open Program

/-- The request takes no assistant's flag back. -/
def Request.keepsAssistants : Request → Bool
  | .addWorker _ info => info.assistant != some false
  | _ => true

namespace Scheduler

variable {s t u : Scheduler} {env : Env} {moment : Moment} {ref : Ref}

/-! ## Workers that stay -/

/-- The worker is active. -/
def Knows (s : Scheduler) (worker : WorkerId) : Prop :=
  (s.activeWorkers.get? worker).isSome = true

/-- The worker is an active assistant. -/
def Assists (s : Scheduler) (worker : WorkerId) : Prop :=
  (s.workerAt worker).assistant = true

instance (s : Scheduler) (worker : WorkerId) : Decidable (s.Knows worker) := by
  unfold Knows; infer_instance

instance (s : Scheduler) (worker : WorkerId) : Decidable (s.Assists worker) := by
  unfold Assists; infer_instance

theorem Assists.knows {worker : WorkerId} (hassists : s.Assists worker) : s.Knows worker := by
  unfold Assists Scheduler.workerAt Dict.getD at hassists
  unfold Knows
  cases hget : s.activeWorkers.get? worker with
  | none =>
      rw [hget] at hassists
      cases hassists
  | some _ => rfl

theorem mem_assistants (hrostered : s.Rostered) {worker : WorkerId} :
    worker ∈ s.assistants ↔ s.Assists worker := by
  simp only [assistants, List.mem_map, List.mem_filter, Dict.mem_values_iff]
  constructor
  · rintro ⟨known, ⟨⟨id, hget⟩, hassistant⟩, rfl⟩
    have hknown := workerAt_eq hget
    have hid := hrostered.worker_id id
    rw [hknown] at hid
    unfold Assists
    rw [hid, hknown]
    exact hassistant
  · intro hassists
    obtain ⟨known, hget⟩ := Option.isSome_iff_exists.mp hassists.knows
    have hknown := workerAt_eq hget
    refine ⟨known, ⟨⟨worker, hget⟩, hknown ▸ hassists⟩, ?_⟩
    rw [← hknown]
    exact hrostered.worker_id worker

/-- No worker is forgotten, and no assistant becomes an ordinary worker. -/
structure Retains (s t : Scheduler) : Prop where
  knows : ∀ worker, s.Knows worker → t.Knows worker
  assists : ∀ worker, s.Assists worker → t.Assists worker

theorem Retains.refl (s : Scheduler) : Retains s s := ⟨fun _ h => h, fun _ h => h⟩

theorem Retains.trans (hst : Retains s t) (htu : Retains t u) : Retains s u where
  knows := fun worker h => htu.knows worker (hst.knows worker h)
  assists := fun worker h => htu.assists worker (hst.assists worker h)

theorem retains_of_workers (hworkers : t.activeWorkers = s.activeWorkers) : Retains s t := by
  constructor <;> intro worker h
  · unfold Knows at h ⊢
    rw [hworkers]
    exact h
  · unfold Assists Scheduler.workerAt at h ⊢
    rw [hworkers]
    exact h

theorem SameTables.retains (hsame : SameTables s t) : Retains s t :=
  retains_of_workers hsame.activeWorkers

theorem retains_updateWorkerAt (s : Scheduler) (worker : WorkerId) {change : Worker → Worker}
    (hchange : ∀ worker, worker.assistant = true → (change worker).assistant = true) :
    Retains s (s.updateWorkerAt worker change) := by
  constructor <;> intro other h
  · unfold Knows updateWorkerAt at *
    rw [Dict.get?_set]
    split
    · rfl
    · exact h
  · unfold Assists at *
    rw [workerAt_updateWorkerAt]
    split
    · rename_i hother
      exact hchange _ (hother ▸ h)
    · exact h

theorem retains_ensureWorker (s : Scheduler) (now : Time) (worker : WorkerId) :
    Retains s (s.ensureWorker now worker) := by
  unfold ensureWorker
  split
  · exact .refl s
  · rename_i hnone
    constructor <;> intro other h
    · unfold Knows at *
      rw [Dict.get?_set]
      split
      · rfl
      · exact h
    · have hother : other ≠ worker := by
        rintro rfl
        have hknows := h.knows
        unfold Knows at hknows
        rw [hnone] at hknows
        cases hknows
      unfold Assists Scheduler.workerAt Dict.getD at *
      rw [Dict.get?_set, if_neg hother]
      exact h

theorem retains_updateWorker (s : Scheduler) (now : Time) (worker : WorkerId) (getWork : Bool) :
    Retains s (s.updateWorker now worker getWork) :=
  (retains_ensureWorker s now worker).trans (retains_updateWorkerAt _ worker fun _ h => h)

theorem knows_updateWorker (s : Scheduler) (now : Time) (worker : WorkerId) (getWork : Bool) :
    (s.updateWorker now worker getWork).Knows worker := by
  unfold Knows updateWorker updateWorkerAt
  rw [Dict.get?_set, if_pos rfl]
  rfl

/-- What counting promises about workers. -/
def retainingContract : Contract Raised Scheduler where
  inv _ := True
  rel := Retains
  allows _ := True
  refl := .refl
  trans := .trans

theorem countPending_retains (moment : Moment) (worker : WorkerId) :
    Honours retainingContract (countPending moment worker) :=
  countPending_honours retainingContract
    (fun s now worker _ => ⟨trivial, retains_ensureWorker s now worker⟩)
    (fun _ _ _ => trivial) moment worker

/-! ## Runs that are attended -/

/-- The owner of every run is a stakeholder of the step or an assistant, and stakeholders
are active. -/
structure Attended (s : Scheduler) : Prop where
  owner : ∀ ref, s.Filed ref → (s.stepAt ref).status.isRunning = true →
    ∀ owner, (s.stepAt ref).workerRunning = some owner →
      owner ∈ (s.stepAt ref).stakeholders ∨ s.Assists owner
  stakeholder : ∀ ref, s.Filed ref → ∀ worker ∈ (s.stepAt ref).stakeholders, s.Knows worker

/-- No run starts and nobody loses a stake in a step. -/
structure Continues (s t : Scheduler) : Prop where
  retains : Retains s t
  filed : ∀ ref, t.Filed ref → s.Filed ref
  running : ∀ ref, t.Filed ref → (t.stepAt ref).status.isRunning = true →
    (s.stepAt ref).status.isRunning = true ∧
      (t.stepAt ref).workerRunning = (s.stepAt ref).workerRunning
  stakeholders : ∀ ref, t.Filed ref → (t.stepAt ref).stakeholders = (s.stepAt ref).stakeholders

theorem Continues.refl (s : Scheduler) : Continues s s :=
  ⟨.refl s, fun _ h => h, fun _ _ h => ⟨h, rfl⟩, fun _ _ => rfl⟩

theorem Continues.trans (hst : Continues s t) (htu : Continues t u) : Continues s u where
  retains := hst.retains.trans htu.retains
  filed := fun ref h => hst.filed ref (htu.filed ref h)
  running := fun ref h hrunning => by
    obtain ⟨hmiddle, howner⟩ := htu.running ref h hrunning
    obtain ⟨hfirst, howner'⟩ := hst.running ref (htu.filed ref h) hmiddle
    exact ⟨hfirst, howner.trans howner'⟩
  stakeholders := fun ref h =>
    (htu.stakeholders ref h).trans (hst.stakeholders ref (htu.filed ref h))

theorem Attended.continues (hattended : s.Attended) (hcontinues : Continues s t) :
    t.Attended where
  owner := by
    intro ref hfiled hrunning owner howner
    obtain ⟨hbefore, hsame⟩ := hcontinues.running ref hfiled hrunning
    rw [hcontinues.stakeholders ref hfiled]
    refine (hattended.owner ref (hcontinues.filed ref hfiled) hbefore owner ?_).imp_right
      (hcontinues.retains.assists owner)
    rw [← hsame, howner]
  stakeholder := by
    intro ref hfiled worker hworker
    rw [hcontinues.stakeholders ref hfiled] at hworker
    exact hcontinues.retains.knows worker
      (hattended.stakeholder ref (hcontinues.filed ref hfiled) worker hworker)

theorem Greets.continues (hgreets : Greets s t) (hretains : Retains s t) : Continues s t where
  retains := hretains
  filed := fun ref => (hgreets.filed ref).mp
  running := fun ref _ hrunning => by
    rw [hgreets.stepAt] at hrunning ⊢
    exact ⟨hrunning, rfl⟩
  stakeholders := fun ref _ => by rw [hgreets.stepAt]

theorem Rests.continues (hrests : Rests s t) (hretains : Retains s t) : Continues s t where
  retains := hretains
  filed := fun ref => (hrests.filed ref).mp
  running := fun ref _ hrunning => by
    rw [hrests.status] at hrunning
    exact ⟨hrunning, hrests.workerRunning ref⟩
  stakeholders := fun ref _ => hrests.stakeholders ref

/-- Writes of objects that keep what they are scheduled with and start no run. -/
theorem continues_of_same (hsame : SameTables s t)
    (hplan : ∀ ref, (t.stepAt ref).plan = (s.stepAt ref).plan)
    (hrunning : ∀ ref, (t.stepAt ref).status.isRunning = true →
      (s.stepAt ref).status.isRunning = true ∧
        (t.stepAt ref).workerRunning = (s.stepAt ref).workerRunning) : Continues s t where
  retains := hsame.retains
  filed := fun ref h => by
    have hid : (t.stepAt ref).id = (s.stepAt ref).id := (congrArg Step.id (hplan ref) :)
    unfold Filed at h ⊢
    rwa [hsame.getStep, hid] at h
  running := fun ref _ => hrunning ref
  stakeholders := fun ref _ => (congrArg Step.stakeholders (hplan ref) :)

/-! ## Requests that start no run -/

theorem retains_after (env : Env) (moment : Moment) {request : Request}
    (hquiet : request.isQuiet = true) (hkeeps : request.keepsAssistants = true) :
    Retains s (env.after s ⟨moment, request⟩) := by
  cases request with
  | countPending worker =>
      obtain ⟨-, hretains, -⟩ := reply_meets Response.pending
        (countPending_retains moment worker s trivial)
      exact hretains
  | ping worker => exact retains_updateWorker s moment.now worker false
  | addWorker worker info =>
      suffices hretains : Retains s (s.addWorker moment.now worker info) from hretains
      refine (retains_ensureWorker s moment.now worker).trans
        (retains_updateWorkerAt _ worker fun known hassistant => ?_)
      have hinfo : info.assistant = none ∨ info.assistant = some true := by
        cases hflag : info.assistant with
        | none => exact .inl rfl
        | some flag =>
            cases flag with
            | true => exact .inr rfl
            | false => simp [Request.keepsAssistants, hflag] at hkeeps
      rcases hinfo with h | h
      · simpa [Worker.assistant, WorkerInfo.update, h] using hassistant
      · simp [Worker.assistant, WorkerInfo.update, h]
  | decreaseRunningStepResources id amounts =>
      obtain ⟨-, hretains, -⟩ := reply_meets (fun _ => Response.nothing)
        (decreaseRunningStepResources_honours retainingContract (fun _ => trivial)
          (fun _ => trivial) (fun s _ _ _ _ => retains_of_workers rfl) id amounts s trivial)
      exact hretains
  | setStepStatusMessage id message =>
      have hdescribes : Describes s (s.setStepStatusMessage id message) :=
        describes_reportToBatch s id (fun _ => rfl) fun _ => rfl
      exact hdescribes.same.retains
  | setStepProgressPercentage id percentage =>
      have hdescribes : Describes s (s.setStepProgressPercentage id percentage) :=
        describes_reportToBatch s id (fun _ => rfl) fun _ => rfl
      exact hdescribes.same.retains
  | updateResource resource amount =>
      have hretains : Retains s (s.updateResource resource amount) := by
        unfold updateResource
        split <;> exact retains_of_workers rfl
      exact hretains
  | addStepBatcher | updateResources | pause | unpause => exact retains_of_workers rfl
  | addStep | getWork | prune | markAsDone | forgiveFailures | reEnableStep | disableWorker
  | dump | load => cases hquiet

/-- A status that ends runs. -/
theorem Settles.continues {config : Config} {now : Time} {newStatus : Status}
    (hsettles : Settles config now ref newStatus s t) (hstopped : newStatus.isRunning = false)
    (hdisabled : newStatus ≠ .disabled) : Continues s t := by
  refine continues_of_same hsettles.same (fun other => ?_) fun other hrunning => ?_
  · rw [hsettles.object]
    exact settled_plan ..
  · have hnever : ∀ step : Step,
        (step.settle (some config) now newStatus).status.isRunning = false := fun step =>
      step.settle_not_running _ _ _ hstopped hdisabled
    rw [hsettles.object] at hrunning ⊢
    unfold settled at hrunning ⊢
    split_ifs at hrunning ⊢
    · rw [hnever] at hrunning
      cases hrunning
    · rw [Step.withoutBatch, hnever] at hrunning
      cases hrunning
    · exact ⟨hrunning, rfl⟩

theorem ReEnables.continues {config : Config} {now : Time}
    (hreEnables : ReEnables config now ref s t) : Continues s t := by
  refine continues_of_same hreEnables.same (fun other => ?_) fun other hrunning => ?_
  · rw [hreEnables.object]
    split
    · rename_i hother
      rw [hother]
      exact Step.settle_plan ..
    · rfl
  · rw [hreEnables.object] at hrunning ⊢
    split_ifs at hrunning ⊢
    · have hnever : ((s.stepAt ref).reEnable.settle (some config) now
          .failed).status.isRunning = false := Step.settle_not_running _ _ _ _ rfl (by decide)
      exact absurd (hrunning.symm.trans hnever) (by decide)
    · exact ⟨hrunning, rfl⟩

theorem continues_disableWorker (hindex : s.Indexed) (now : Time) (worker : WorkerId) :
    Continues s (s.disableWorker now worker) where
  retains := by
    have hremoved : Retains s (s.removeWorkersFromSteps [worker] false) :=
      (sameTables_removeWorkersFromSteps s [worker] false).1.retains
    exact (hremoved.trans (retains_ensureWorker _ now worker)).trans
      (retains_updateWorkerAt _ worker fun _ h => h)
  filed := fun ref => (filed_disableWorker hindex now worker ref).mp
  running := fun ref _ hrunning => by
    rw [stepAt_disableWorker hindex] at hrunning ⊢
    split_ifs at hrunning ⊢ <;> exact ⟨hrunning, rfl⟩
  stakeholders := fun ref _ => by
    rw [stepAt_disableWorker hindex]
    split <;> rfl

/-- The requests of users. -/
theorem Handles.continues {event : Event} {outcome : Except Raised Response} (hindex : s.Indexed)
    (hhandles : Handles env s event outcome t) (husers : event.request.isWorkers = false)
    (hload : event.request ≠ .load) : Continues s t := by
  cases hhandles with
  | serves hserves =>
      cases hserves with
      | adds | works | prunes => cases husers
      | rests hquiet =>
          obtain ⟨moment, request⟩ := event
          cases request <;> cases husers <;> cases hquiet
  | marks _ hsettles => exact hsettles.continues rfl (by decide)
  | forgives _ _ hsettles => exact hsettles.continues rfl (by decide)
  | reEnables _ _ hreEnables => exact hreEnables.continues
  | idle => exact .refl s
  | disables => exact continues_disableWorker hindex _ _
  | dumps => exact ⟨retains_of_workers rfl, fun _ h => h, fun _ _ h => ⟨h, rfl⟩, fun _ _ => rfl⟩
  | loads => exact absurd rfl hload

theorem SameContents.continues (hcontents : SameContents s t) : Continues s t := by
  have hstepAt : ∀ ref, t.stepAt ref = s.stepAt ref := fun ref => by
    simp only [Scheduler.stepAt, hcontents.heap]
  refine ⟨retains_of_workers hcontents.activeWorkers, fun ref h => ?_, fun ref _ h => ?_,
    fun ref _ => by rw [hstepAt]⟩
  · unfold Filed Scheduler.getStep at h ⊢
    rwa [hstepAt, hcontents.steps] at h
  · rw [hstepAt] at h ⊢
    exact ⟨h, rfl⟩

/-! ## Scheduling and reporting -/

/-- The worker may own a run of the step. -/
def Attends (s : Scheduler) (ref : Ref) (worker : WorkerId) : Prop :=
  worker ∈ (s.stepAt ref).stakeholders ∨ s.Assists worker

instance (s : Scheduler) (ref : Ref) (worker : WorkerId) : Decidable (s.Attends ref worker) := by
  unfold Attends; infer_instance

theorem retains_receiveStep (s : Scheduler) (config : Config) (moment : Moment)
    (args : AddStepArgs) : Retains s (s.receiveStep config moment args) ∧
      (s.receiveStep config moment args).Knows args.worker := by
  have hretains := retains_updateWorker s moment.now args.worker false
  have hknows := knows_updateWorker s moment.now args.worker false
  unfold receiveStep
  dsimp only
  split
  · have hinsert := retains_of_workers (activeWorkers_setdefaultStep
      (s.updateWorker moment.now args.worker false) (args.defaultStep config moment))
    exact ⟨hretains.trans hinsert, hinsert.knows _ hknows⟩
  · exact ⟨hretains, hknows⟩

theorem Attended.received (hattended : s.Attended) (hstored : s.Stored) (config : Config)
    (moment : Moment) (args : AddStepArgs) :
    (s.receiveStep config moment args).Attended := by
  have hreceipt := hstored.receipt config moment args
  obtain ⟨hretains, -⟩ := retains_receiveStep s config moment args
  refine ⟨fun ref hfiled hrunning owner howner => ?_, fun ref hfiled worker hworker => ?_⟩
  · rcases hreceipt.filed hstored hfiled with hold | ⟨-, hnew⟩
    · rw [hreceipt.stepAt ref (hstored.filed_lt hold)] at hrunning howner ⊢
      exact (hattended.owner ref hold hrunning owner howner).imp_right (hretains.assists owner)
    · rw [hnew] at hrunning
      cases hrunning
  · rcases hreceipt.filed hstored hfiled with hold | ⟨-, hnew⟩
    · rw [hreceipt.stepAt ref (hstored.filed_lt hold)] at hworker
      exact hretains.knows worker (hattended.stakeholder ref hold worker hworker)
    · rw [hnew] at hworker
      exact absurd hworker (Finset.notMem_empty worker)

def LeavesAttended (s : Scheduler) (config : Config) (moment : Moment) (args : AddStepArgs)
    (ref : Ref) : Prop :=
  let enabled := (s.workerAt args.worker).enabled
  let reported := (s.openedStep moment args ref).report config moment args
  if (s.stepAt ref).dropsClaim config moment args enabled then True
  else if s.claimRaises args ref then
    (s.stepAt ref).status.isRunning = true → s.Attends ref args.worker
  else reported.status.isRunning = true → ∀ owner ∈ reported.workerRunning,
    s.Attends ref owner ∨ (args.holds enabled = true ∧ owner = args.worker)

instance (s : Scheduler) (config : Config) (moment : Moment) (args : AddStepArgs) (ref : Ref) :
    Decidable (s.LeavesAttended config moment args ref) := by
  unfold LeavesAttended; infer_instance

theorem Accepts.target_reported {config : Config} {args : AddStepArgs} {enabled : Bool}
    (haccepts : Accepts config moment args ref enabled s t) :
    (t.stepAt ref).status = ((s.openedStep moment args ref).report config moment args).status ∧
      (t.stepAt ref).workerRunning =
        ((s.openedStep moment args ref).report config moment args).workerRunning :=
  ⟨(congrArg Step.status haccepts.target :), (congrArg Step.workerRunning haccepts.target :)⟩

/-- The members of a batch take over no run. -/
theorem Accepts.other_goes_on {config : Config} {args : AddStepArgs} {enabled : Bool} {other : Ref}
    (haccepts : Accepts config moment args ref enabled s t) (hlt : other < s.nextRef)
    (hne : other ≠ ref) (hrunning : (t.stepAt other).status.isRunning = true) :
    (s.stepAt other).status.isRunning = true ∧
      (t.stepAt other).workerRunning = (s.stepAt other).workerRunning := by
  have hcore := haccepts.other other hlt hne
  split at hcore
  · rename_i hpasses
    refine ⟨by rw [hpasses.2.2.1]; rfl, ?_⟩
    exact (congrArg Step.workerRunning hcore :).trans (Step.settle_workerRunning ..)
  · have hstatus : (t.stepAt other).status = (s.stepAt other).status :=
      (congrArg Step.status hcore :)
    exact ⟨hstatus ▸ hrunning, (congrArg Step.workerRunning hcore :)⟩

theorem Attended.accepts {config : Config} {args : AddStepArgs} {enabled : Bool}
    (hattended : s.Attended) (hstored : s.Stored) (hfiled : s.Filed ref)
    (hworker : s.Knows args.worker)
    (haccepts : Accepts config moment args ref enabled s t)
    (hleaves : ((s.openedStep moment args ref).report config moment args).status.isRunning =
        true → ∀ owner ∈ ((s.openedStep moment args ref).report config moment
          args).workerRunning,
      s.Attends ref owner ∨ (args.holds enabled = true ∧ owner = args.worker)) :
    t.Attended := by
  have hretains : Retains s t := by
    have hset : Retains s (s.updateWorkerAt args.worker fun worker =>
        { worker with steps := (worker.steps.add ref).rehash moment.refOrder }) :=
      retains_updateWorkerAt s args.worker fun _ h => h
    by_cases hregisters : args.registers enabled = true
    · refine hset.trans (retains_of_workers ?_)
      rw [haccepts.activeWorkers, if_pos hregisters]
      rfl
    · refine retains_of_workers ?_
      rw [haccepts.activeWorkers, if_neg hregisters]
  have hsubset : ∀ other < s.nextRef, (s.stepAt other).stakeholders ⊆
      (t.stepAt other).stakeholders := by
    intro other hlt
    rw [haccepts.stakeholders other hlt]
    split
    · exact Finset.subset_insert ..
    · exact subset_rfl
  have hold : ∀ other, t.Filed other → s.Filed other ∨
      ((t.stepAt other).status = .unknown ∧ (t.stepAt other).stakeholders = {args.worker}) := by
    intro other h
    rcases haccepts.fresh h with hrow | ⟨-, -, -, -, hcore, hstakeholders⟩
    · exact .inl (hstored.index.filed hrow)
    · exact .inr ⟨(congrArg Step.status hcore :), hstakeholders⟩
  refine ⟨fun other hfiled hrunning owner howner => ?_, fun other hfiled worker hmem => ?_⟩
  · rcases hold other hfiled with hfiled | ⟨hstatus, -⟩
    · have hlt := hstored.filed_lt hfiled
      have hkept : ∀ {owner}, s.Attends other owner → t.Attends other owner := fun h =>
        h.imp (fun hmem => hsubset other hlt hmem) (hretains.assists _)
      by_cases hother : other = ref
      · subst hother
        have hreported := haccepts.target_reported
        rw [hreported.1] at hrunning
        rcases hleaves hrunning owner (hreported.2 ▸ howner) with h | ⟨hholds, rfl⟩
        · exact hkept h
        · refine .inl ?_
          rw [haccepts.stakeholders other hlt, if_pos ⟨hholds, .inl rfl⟩]
          exact Finset.mem_insert_self ..
      · obtain ⟨hbefore, hsame⟩ := haccepts.other_goes_on hlt hother hrunning
        exact hkept (hattended.owner other hfiled hbefore owner (hsame ▸ howner))
    · rw [hstatus] at hrunning
      cases hrunning
  · rcases hold other hfiled with hfiled | ⟨-, hstakeholders⟩
    · rw [haccepts.stakeholders other (hstored.filed_lt hfiled)] at hmem
      refine hretains.knows worker ?_
      split at hmem
      · rcases Finset.mem_insert.mp hmem with rfl | hmem
        · exact hworker
        · exact hattended.stakeholder other hfiled worker hmem
      · exact hattended.stakeholder other hfiled worker hmem
    · rw [hstakeholders, Finset.mem_singleton] at hmem
      exact hmem ▸ hretains.knows _ hworker

/-- The whole of `add_step`. -/
theorem Attended.adds {config : Config} {args : AddStepArgs} {outcome : Except Raised Unit}
    (hattended : s.Attended) (hstored : s.Stored)
    (hleaves : ∀ ref, (s.receiveStep config moment args).getStep args.stepId = some ref →
      (s.receiveStep config moment args).LeavesAttended config moment args ref)
    (hadds : AddsStep config moment args (s.receiveStep config moment args) outcome t) :
    t.Attended := by
  have hreceived := hattended.received hstored config moment args
  have hrstored := receiveStep_stored hstored config moment args
  obtain ⟨-, hknows⟩ := retains_receiveStep s config moment args
  generalize s.receiveStep config moment args = received at *
  cases hadds with
  | dropped => exact hreceived
  | @accepted ref t hget hclaim hstarts haccepts =>
      have hleft := hleaves ref hget
      unfold LeavesAttended at hleft
      dsimp only at hleft
      rw [hclaim, if_neg (by decide), if_neg hstarts] at hleft
      exact hreceived.accepts hrstored (hrstored.index.filed hget) hknows haccepts hleft
  | @failed ref error hget hclaim hraises herror =>
      have hleft := hleaves ref hget
      unfold LeavesAttended at hleft
      dsimp only at hleft
      rw [hclaim, if_neg (by decide), if_pos hraises] at hleft
      have hsame := fun other => received.stepAt_failedClaim args ref other
      have hfiled : ∀ other, ((received.joinStep args ref).updateStep ref fun step =>
          { step with workerRunning := some args.worker }).Filed other → received.Filed other := by
        intro other h
        unfold Filed at h ⊢
        rwa [(hsame other).1] at h
      refine ⟨fun other h hrunning owner howner => ?_, fun other h worker hmem => ?_⟩
      · obtain ⟨-, hstatus, hstakeholders, -, -, hwrites⟩ := hsame other
        rw [hstatus] at hrunning
        rw [hstakeholders]
        rw [hwrites] at howner
        split at howner
        · rename_i hother
          subst hother
          obtain rfl := Option.some.inj howner
          exact hleft hrunning
        · exact hreceived.owner other (hfiled other h) hrunning owner howner
      · rw [(hsame other).2.2.1] at hmem
        exact hreceived.stakeholder other (hfiled other h) worker hmem

/-! ## Handing out -/

theorem Prepares.continues {args : GetWorkArgs} (hprepares : Prepares moment.now args s t)
    (hsame : SameTables (s.noted args) t) : Continues s t where
  retains := by
    refine Retains.trans ?_ hsame.retains
    unfold noted
    split
    · exact retains_updateWorkerAt s args.worker fun _ _ => rfl
    · exact .refl s
  filed := fun ref => (hprepares.filed ref).mp
  running := fun ref _ hrunning => by
    rw [hprepares.object] at hrunning ⊢
    split_ifs at hrunning ⊢
    · rw [Step.withStatus_status] at hrunning
      cases hrunning
    · exact ⟨hrunning, rfl⟩
  stakeholders := fun ref _ => by
    rw [hprepares.object]
    split
    · exact (congrArg Step.stakeholders (Step.withStatus_plan ..) :)
    · rfl

/-- Steps that are handed out to a worker that attends them. -/
theorem Attended.hands {change : Step → Step} {refs : List Ref} {worker : WorkerId}
    (hattended : s.Attended) (hhands : Hands change refs s t)
    (hid : ∀ step, (change step).id = step.id)
    (hstakeholders : ∀ step, (change step).stakeholders = step.stakeholders)
    (howners : ∀ step, (change step).workerRunning = some worker)
    (hattends : ∀ ref ∈ refs, s.Attends ref worker) : t.Attended := by
  have hfiled : ∀ ref, t.Filed ref → s.Filed ref := by
    intro ref h
    unfold Filed at h ⊢
    rw [hhands.same.getStep, hhands.object] at h
    split at h
    · rwa [hid] at h
    · exact h
  have hsame : ∀ ref, (t.stepAt ref).stakeholders = (s.stepAt ref).stakeholders := by
    intro ref
    rw [hhands.object]
    split
    · exact hstakeholders _
    · rfl
  have hretains := hhands.same.retains
  refine ⟨fun ref h hrunning owner howner => ?_, fun ref h other hmem => ?_⟩
  · rw [hsame]
    refine Or.imp_right (hretains.assists owner) ?_
    rw [hhands.object] at hrunning howner
    split_ifs at hrunning howner with hpicked
    · rw [howners] at howner
      exact Option.some.inj howner ▸ hattends ref hpicked
    · exact hattended.owner ref (hfiled ref h) hrunning owner howner
  · rw [hsame] at hmem
    exact hretains.knows other (hattended.stakeholder ref (hfiled ref h) other hmem)

theorem Attended.handsOut {env : Env} {now : Time} {worker : WorkerId} {selection : Selection}
    {work : Work} (hattended : s.Attended)
    (hhands : HandsOut env now worker selection s work t)
    (hattends : ∀ ref ∈ selection.picks, s.Attends ref worker) : t.Attended := by
  cases hhands with
  | nothing => exact hattended
  | single hbest hsize hands =>
      refine hattended.hands hands (fun step => by simp) (fun step => ?_) (fun _ => rfl) ?_
      · exact (congrArg Step.stakeholders (Step.withStatus_plan step now .running) :)
      · intro ref href
        refine hattends ref ?_
        rw [Selection.picks, if_neg hsize, hbest]
        exact href
  | batch hsize hids hands =>
      refine hattended.hands hands (fun step => by simp) (fun step => ?_) (fun _ => rfl) ?_
      · exact (congrArg Step.stakeholders (Step.withStatus_plan step now .batchRunning) :)
      · intro ref href
        refine hattends ref ?_
        rw [Selection.picks, if_pos hsize]
        exact href

/-! ## Pruning -/

theorem Inactivates.knows {workers : List WorkerId} (hinactivates : Inactivates workers s t)
    {worker : WorkerId} : t.Knows worker ↔ worker ∉ workers ∧ s.Knows worker := by
  unfold Knows
  rw [hinactivates.worker]
  split <;> simp [*]

theorem Inactivates.assists {workers : List WorkerId} (hinactivates : Inactivates workers s t)
    {worker : WorkerId} : t.Assists worker ↔ worker ∉ workers ∧ s.Assists worker := by
  by_cases hmem : worker ∈ workers
  · refine iff_of_false (fun h => ?_) fun h => h.1 hmem
    exact (hinactivates.knows.mp h.knows).1 hmem
  · unfold Assists
    rw [hinactivates.workerAt hmem]
    exact (and_iff_right hmem).symm

theorem Inactivates.mem_stakeholders {workers : List WorkerId}
    (hinactivates : Inactivates workers s t) (hindex : s.Indexed) (hfiled : s.Filed ref)
    {worker : WorkerId} :
    worker ∈ (t.stepAt ref).stakeholders ↔
      worker ∉ workers ∧ worker ∈ (s.stepAt ref).stakeholders := by
  rw [hinactivates.object, if_pos (hindex.mem_activeSteps.mpr hfiled)]
  unfold Step.withoutWorkers
  rw [if_pos rfl, Finset.mem_filter, and_comm]

/-- The recorded owner of the run is none of the workers that `prune` keeps. -/
def LostRun (s : Scheduler) (config : Config) (now : Time) (ref : Ref) : Prop :=
  (s.stepAt ref).status.isRunning = true ∧
    ∃ owner ∈ (s.stepAt ref).workerRunning, ¬(s.pruneWorkers config now).Knows owner

instance (s : Scheduler) (config : Config) (now : Time) (ref : Ref) :
    Decidable (s.LostRun config now ref) := by
  unfold LostRun; infer_instance

/-- The step is a member of the batch of a combined step whose run is lost. -/
def LostBatch (s : Scheduler) (config : Config) (now : Time) (ref : Ref) : Prop :=
  (s.stepAt ref).status = .batchRunning ∧ ∃ combined ∈ s.activeSteps,
    (s.stepAt combined).status = .running ∧ (s.stepAt combined).batchId.isSome = true ∧
      (s.stepAt ref).batchId = (s.stepAt combined).batchId ∧ s.LostRun config now combined

instance (s : Scheduler) (config : Config) (now : Time) (ref : Ref) :
    Decidable (s.LostBatch config now ref) := by
  unfold LostBatch; infer_instance

/-- Once the silent workers are gone, `prune` takes the owners that are gone as dead. -/
theorem runByDead_iff {config : Config} {now : Time} (hsound : s.Sound)
    (hattended : s.Attended) (hfiled : s.Filed ref) :
    ((s.pruneWorkers config now).stepAt ref).runByDead (s.pruneWorkers config now).assistants =
      true ↔ s.LostRun config now ref := by
  have hinactivates : Inactivates (s.silentWorkers config now) s (s.pruneWorkers config now) :=
    inactivateWorkers_spec hsound.stored _
  have hrostered := (hsound.inactivates hinactivates).rostered
  obtain ⟨step, hstep⟩ := hinactivates.plan ref
  have hrun : ((s.pruneWorkers config now).stepAt ref).status = (s.stepAt ref).status ∧
      ((s.pruneWorkers config now).stepAt ref).workerRunning = (s.stepAt ref).workerRunning := by
    rw [hstep]
    exact ⟨rfl, rfl⟩
  unfold Step.runByDead LostRun
  rw [hrun.1, hrun.2]
  cases howner : (s.stepAt ref).workerRunning with
  | none => simp
  | some owner =>
      simp only [Bool.and_eq_true, decide_eq_true_eq, mem_assistants hrostered, and_assoc,
        hinactivates.mem_stakeholders hsound.index hfiled, hinactivates.assists,
        Option.mem_some_iff, exists_eq_left', hinactivates.knows]
      refine and_congr_right fun hrunning => ?_
      constructor
      · rintro ⟨hstake, hassist⟩ ⟨hkept, -⟩
        rcases hattended.owner ref hfiled hrunning owner howner with h | h
        · exact hstake ⟨hkept, h⟩
        · exact hassist ⟨hkept, h⟩
      · intro hgone
        refine ⟨fun h => hgone ⟨h.1, hattended.stakeholder ref hfiled owner h.2⟩, fun h => ?_⟩
        exact hgone ⟨h.1, h.2.knows⟩

/-- The runs that `prune` ends. -/
theorem prune_stops {config : Config} {now : Time} (hsound : s.Sound) (hattended : s.Attended)
    (hrun : (prune config now).exec s = (.ok (), t)) (hfiled : s.Filed ref)
    (hrunning : (s.stepAt ref).status.isRunning = true) :
    (t.stepAt ref).status.isRunning = false ↔
      s.LostRun config now ref ∨ s.LostBatch config now ref := by
  have hinactivates : Inactivates (s.silentWorkers config now) s (s.pruneWorkers config now) :=
    inactivateWorkers_spec hsound.stored _
  obtain ⟨hnodup, hmem, visited, hvisits, hobjects⟩ :=
    prune_visits hsound.stored hsound.retriable hrun
  have hdead := fun {ref} => @runByDead_iff s ref config now hsound hattended
  have hsame : ∀ ref, ((s.pruneWorkers config now).stepAt ref).status = (s.stepAt ref).status ∧
      ((s.pruneWorkers config now).stepAt ref).batchId = (s.stepAt ref).batchId := by
    intro ref
    obtain ⟨step, hstep⟩ := hinactivates.plan ref
    rw [hstep]
    exact ⟨rfl, rfl⟩
  rw [hobjects, hvisits.stops hnodup (by rw [(hsame ref).1]; exact hrunning), hmem, hdead hfiled]
  refine or_congr (and_iff_right hfiled) ?_
  unfold LostBatch Drags
  constructor
  · rintro ⟨combined, hcombined, hgone, hstatus, hbatch, -, hmember, hsameBatch⟩
    have hfiled := (hmem combined).mp hcombined
    rw [(hsame _).1] at hstatus hmember
    rw [(hsame _).2] at hbatch hsameBatch
    rw [(hsame _).2] at hsameBatch
    exact ⟨hmember, combined, hsound.index.mem_activeSteps.mpr hfiled, hstatus, hbatch,
      hsameBatch, (hdead hfiled).mp hgone⟩
  · rintro ⟨hmember, combined, hcombined, hstatus, hbatch, hsameBatch, hgone⟩
    have hfiledCombined := hsound.index.mem_activeSteps.mp hcombined
    refine ⟨combined, (hmem combined).mpr hfiledCombined, (hdead hfiledCombined).mpr hgone, ?_⟩
    rw [(hsame _).1, (hsame _).2, (hsame _).1, (hsame _).2]
    exact ⟨hstatus, hbatch, (hinactivates.filed ref).mpr hfiled, hmember, hsameBatch⟩

theorem Prunes.retains {config : Config} {now : Time} (hprunes : Prunes config now s t) :
    Retains (s.pruneWorkers config now) t := by
  obtain ⟨swept, removed, hsweeps, hdrops, -⟩ := hprunes.outcome
  exact retains_of_workers
    (hdrops.surroundings.activeWorkers.trans hsweeps.same.activeWorkers)

theorem Attended.pruned (hattended : s.Attended) (hsound : s.Sound)
    (hrun : (prune env.config moment.now).exec s = (.ok (), t))
    (hprunes : Prunes env.config moment.now s t) : t.Attended := by
  have hinactivates := hprunes.inactivates
  have hretains := hprunes.retains
  have hstakeholders : ∀ ref, t.Filed ref → ∀ worker, worker ∈ (t.stepAt ref).stakeholders ↔
      worker ∉ s.silentWorkers env.config moment.now ∧
        worker ∈ (s.stepAt ref).stakeholders := by
    intro ref hfiled worker
    rw [(hprunes.object ref).stakeholders]
    exact hinactivates.mem_stakeholders hsound.index (hprunes.filed hfiled)
  refine ⟨fun ref hfiled hrunning owner howner => ?_, fun ref hfiled worker hmem => ?_⟩
  · have hbefore := hprunes.filed hfiled
    have hsame := hprunes.running hrunning
    have hrunning' : (s.stepAt ref).status.isRunning = true := hsame.status ▸ hrunning
    have howner' : (s.stepAt ref).workerRunning = some owner := hsame.workerRunning ▸ howner
    have hkept : (s.pruneWorkers env.config moment.now).Knows owner := by
      by_contra hgone
      have hstopped := (prune_stops hsound hattended hrun hbefore hrunning').mpr
        (.inl ⟨hrunning', owner, howner', hgone⟩)
      rw [hrunning] at hstopped
      cases hstopped
    have hloud := (hinactivates.knows.mp hkept).1
    rw [hstakeholders ref hfiled]
    refine (hattended.owner ref hbefore hrunning' owner howner').imp (fun h => ⟨hloud, h⟩)
      fun h => hretains.assists owner (hinactivates.assists.mpr ⟨hloud, h⟩)
  · obtain ⟨hloud, hmem⟩ := (hstakeholders ref hfiled worker).mp hmem
    exact hretains.knows worker (hinactivates.knows.mpr
      ⟨hloud, hattended.stakeholder ref (hprunes.filed hfiled) worker hmem⟩)

end Scheduler

open Scheduler

/-! ## Runs of the scheduler -/

namespace Env

variable (env : Env)

def PicksAttended (s : Scheduler) (moment : Moment) (args : GetWorkArgs) : Prop :=
  ((env.received s moment args).workerAt args.worker).enabled = true →
    ∀ ref ∈ ((env.ranked s moment args).selectWork args env.config moment.now
        ((env.received s moment args).lostStep args)).picks,
      (env.ranked s moment args).Attends ref args.worker

instance (s : Scheduler) (moment : Moment) (args : GetWorkArgs) :
    Decidable (env.PicksAttended s moment args) := by
  unfold PicksAttended; infer_instance

/-- The condition under which every run has an owner that is a stakeholder of the step or
an assistant. -/
def AttendsRuns (s : Scheduler) (event : Event) : Prop :=
  match event.request with
  | .addStep args =>
      let received := s.receiveStep env.config event.moment args
      ∀ ref ∈ received.getStep args.stepId,
        received.LeavesAttended env.config event.moment args ref
  | .getWork args =>
      env.LooksAtFiledSteps s event.moment args ∧ env.PicksAttended s event.moment args
  | request => request.keepsAssistants = true

instance (s : Scheduler) (event : Event) : Decidable (env.AttendsRuns s event) := by
  obtain ⟨moment, request⟩ := event
  induction request using Request.casesOn <;> dsimp only [AttendsRuns] <;> infer_instance

/-- `prune` at this moment fails the steps of dead workers and of nobody else. -/
structure FailsTheDead (s : Scheduler) (moment : Moment) : Prop where
  returns : env.outcome s ⟨moment, .prune⟩ = .ok .nothing
  fails : ∀ ref ∈ s.activeSteps, (s.stepAt ref).status.isRunning = true →
    ((((env.after s ⟨moment, .prune⟩).stepAt ref).status = .failed ∨
        ((env.after s ⟨moment, .prune⟩).stepAt ref).status = .disabled) ↔
      s.LostRun env.config moment.now ref ∨ s.LostBatch env.config moment.now ref)
  owners : ∀ ref ∈ (env.after s ⟨moment, .prune⟩).activeSteps,
    ((env.after s ⟨moment, .prune⟩).stepAt ref).status.isRunning = true →
      ∀ owner ∈ ((env.after s ⟨moment, .prune⟩).stepAt ref).workerRunning,
        (env.after s ⟨moment, .prune⟩).Knows owner
  stakeholders : ∀ ref ∈ (env.after s ⟨moment, .prune⟩).activeSteps,
    ∀ worker ∈ ((env.after s ⟨moment, .prune⟩).stepAt ref).stakeholders,
      (env.after s ⟨moment, .prune⟩).Knows worker
  workers : ∀ ref ∈ (env.after s ⟨moment, .prune⟩).activeSteps,
    ∀ worker ∈ ((env.after s ⟨moment, .prune⟩).stepAt ref).workers,
      (env.after s ⟨moment, .prune⟩).Knows worker

theorem failsTheDead {s : Scheduler} (hsound : s.Sound) (hattended : s.Attended)
    (moment : Moment) : env.FailsTheDead s moment := by
  obtain ⟨t, hrun, hprunes⟩ :=
    prune_spec hsound.stored hsound.retriable env.config moment.now
  have hserve := exec_reply (fun _ => Response.nothing) hrun
  have hafter : env.after s ⟨moment, .prune⟩ = t := congrArg Prod.snd hserve
  have hprunedSound := hsound.prunes hprunes
  have hpruned := hattended.pruned hsound hrun hprunes
  refine ⟨congrArg Prod.fst hserve, ?_, ?_, ?_, ?_⟩ <;> rw [hafter] <;> intro ref href
  · intro hrunning
    rw [← prune_stops hsound hattended hrun (hsound.index.mem_activeSteps.mp href) hrunning]
    have hkept : ((s.pruneWorkers env.config moment.now).stepAt ref).status.isRunning = true := by
      obtain ⟨step, hstep⟩ := hprunes.inactivates.plan ref
      rw [hstep]
      exact hrunning
    constructor
    · rintro (h | h) <;> rw [h] <;> rfl
    · intro hstopped
      rcases (hprunes.object ref).status with h | h | h | h
      · rw [h, hkept] at hstopped
        cases hstopped
      · exact .inl h
      · exact .inr h
      · exact absurd h ((hprunes.object ref).not_pending hkept)
  · intro hrunning owner howner
    have hfiled := hprunedSound.index.mem_activeSteps.mp href
    rcases hpruned.owner ref hfiled hrunning owner howner with h | h
    · exact hpruned.stakeholder ref hfiled owner h
    · exact h.knows
  · exact hpruned.stakeholder ref (hprunedSound.index.mem_activeSteps.mp href)
  · exact fun worker hworker => (hprunedSound.rostered.lists
      (hprunedSound.index.mem_activeSteps.mp href) hworker).1

theorem received_attended {s : Scheduler} (hsound : s.Sound) (hattended : s.Attended)
    (moment : Moment) (args : GetWorkArgs) : (env.received s moment args).Attended := by
  have hgreeted : ∀ {t : Scheduler}, t.Attended →
      (t.updateWorker moment.now args.worker true).Attended := fun {t} h =>
    h.continues ((greets_updateWorker t moment.now args.worker true).continues
      (retains_updateWorker t moment.now args.worker true))
  cases hprune : env.config.pruneOnGetWork with
  | true =>
      obtain ⟨pruned, hrun, hreceived⟩ :=
        received_pruned hsound.stored hsound.retriable env moment args hprune
      obtain ⟨t, hrun', hprunes⟩ :=
        prune_spec hsound.stored hsound.retriable env.config moment.now
      obtain rfl : pruned = t := (Prod.mk.inj (hrun.symm.trans hrun')).2
      rw [hreceived]
      exact hgreeted (hattended.pruned hsound hrun hprunes)
  | false =>
      rw [received_unpruned s env moment args hprune]
      exact hgreeted hattended

/-- The whole of `get_work`. -/
theorem getWork_attended {s : Scheduler} {moment : Moment} {args : GetWorkArgs}
    (hsound : s.Sound) (hattended : s.Attended) (hlooks : env.LooksAtFiledSteps s moment args)
    (hpicks : env.PicksAttended s moment args) :
    (env.after s ⟨moment, .getWork args⟩).Attended := by
  have hreceived := env.received_attended hsound hattended moment args
  by_cases henabled : ((env.received s moment args).workerAt args.worker).enabled = true
  · obtain ⟨-, hprepares, hsame⟩ :=
      ranked_noted env moment args hsound.stored hsound.retriable
    have hranked := hreceived.continues (hprepares.continues hsame)
    obtain ⟨-, hgreets, -⟩ :=
      countPending_meets moment args.worker (env.ranked s moment args)
    obtain ⟨-, hretains, -⟩ :=
      countPending_retains moment args.worker (env.ranked s moment args) trivial
    rcases hsound.after_getWork_counts env moment hlooks henabled with
      ⟨error, hcount, -⟩ | ⟨pending, counted, work, hcount, -, hhands, -⟩
    · simp only [Program.final, hcount] at hgreets hretains
      exact hranked.continues (Greets.continues hgreets hretains)
    · simp only [Program.final, hcount] at hgreets hretains
      replace hgreets : Greets (env.ranked s moment args) counted := hgreets
      refine (hranked.continues (hgreets.continues hretains)).handsOut hhands fun ref href => ?_
      unfold Attends
      rw [hgreets.stepAt]
      exact (hpicks henabled ref href).imp_right (Retains.assists hretains args.worker)
  · rw [(hsound.after_getWork_disabled env moment henabled).1]
    exact hreceived

/-- What holds of every state as long as the runs are attended. -/
def Attending (s : Scheduler) : Prop := s.Sound ∧ s.Attended

theorem AttendsRuns.handsOut {env : Env} {s : Scheduler} {event : Event}
    (hattends : env.AttendsRuns s event) : HandsOutFiledSteps env s event := by
  obtain ⟨moment, request⟩ := event
  cases request with
  | getWork args => exact hattends.1
  | _ => exact trivial

/-- One request that starts attended runs only. -/
theorem attending_after {s : Scheduler} {event : Event} (hlasting : Lasting Attending s)
    (hattends : env.AttendsRuns s event) : Lasting Attending (env.after s event) := by
  have hhands := hattends.handsOut
  have hsounds : Lasting Sound s := ⟨hlasting.1.1, fun saved h => by
    obtain ⟨u, hu, rfl⟩ := hlasting.2 saved h
    exact ⟨u, hu.1, rfl⟩⟩
  obtain ⟨hsound, hattended⟩ := hlasting.1
  refine lasting_after (fun {u v} hattending hindex hcontents => ?_) (fun h => h.1) hlasting
    hhands fun hload hdump => ?_
  · exact ⟨hattending.1.reindex hindex hcontents.heap hcontents.nextRef hcontents.steps
      hcontents.activeWorkers, hattending.2.continues hcontents.continues⟩
  refine ⟨(Sound.after hsounds hhands).1.1, ?_⟩
  obtain ⟨moment, request⟩ := event
  by_cases hquiet : request.isQuiet = true
  · have hkeeps : request.keepsAssistants = true := by
      cases request with
      | addWorker => exact hattends
      | _ => rfl
    exact hattended.continues ((rests_after env moment hquiet).continues
      (retains_after env moment hquiet hkeeps))
  cases request with
  | addStep args =>
      obtain ⟨outcome, hadds, -⟩ := hsound.after_addStep env moment args
      exact hattended.adds hsound.stored (fun ref hget => hattends ref hget) hadds
  | getWork args => exact env.getWork_attended hsound hattended hattends.1 hattends.2
  | prune =>
      obtain ⟨t, hrun, hprunes⟩ :=
        prune_spec hsound.stored hsound.retriable env.config moment.now
      have hafter : env.after s ⟨moment, .prune⟩ = t :=
        congrArg Prod.snd (exec_reply (fun _ => Response.nothing) hrun)
      rw [hafter]
      exact hattended.pruned hsound hrun hprunes
  | dump => exact absurd rfl hdump
  | load => exact absurd rfl hload
  | markAsDone | forgiveFailures | reEnableStep | disableWorker =>
      exact hattended.continues ((hsound.handles hhands).continues hsound.index rfl nofun)
  | countPending | ping | addWorker | addStepBatcher | decreaseRunningStepResources
  | setStepStatusMessage | setStepProgressPercentage | updateResources | updateResource
  | pause | unpause => exact absurd rfl hquiet

/-- In every run whose requests start attended runs only, `prune` always fails the steps of
dead workers and of nobody else. -/
theorem failsTheDead_along {resources : Resources} {events : List Event}
    (hattends : Along env.after env.AttendsRuns (.initial resources) events) (moment : Moment) :
    env.FailsTheDead (env.run (.initial resources) events) moment := by
  have hinitial : Lasting Attending (Scheduler.initial resources) := by
    refine ⟨⟨(initial_sound resources).1, ⟨fun ref hfiled => ?_, fun ref hfiled => ?_⟩⟩,
      fun saved hsaved => ?_⟩
    · unfold Filed at hfiled
      cases hfiled
    · unfold Filed at hfiled
      cases hfiled
    · cases hsaved
  obtain ⟨⟨hsound, hattended⟩, -⟩ := runAll_invariant env.after env.AttendsRuns
    (Lasting Attending) (fun _ _ => env.attending_after) hinitial hattends
  exact env.failsTheDead hsound hattended moment

end Env

/-- The batch of `sharedFamily`, with a step of another worker in it, is handed out. -/
def sharedBatch : List Event := sharedFamily ++ [sharedRequest]

/-- The worker has just got the batch, but its run of the other worker's step fails. -/
theorem foreign_member_fails :
    Timely sharedBatch ∧ (batchEnv.run (.initial ∅) sharedBatch).Knows firstWorker ∧
      ¬batchEnv.FailsTheDead (batchEnv.run (.initial ∅) sharedBatch) { now := 5 } := by
  refine ⟨by decide +kernel, by decide +kernel, fun h => ?_⟩
  have hfails := h.fails
  revert hfails
  decide +kernel

/-- Both steps of the batch are the worker's own. -/
theorem own_batch_fails_the_dead :
    batchEnv.FailsTheDead (batchEnv.run (.initial ∅) (ownFamily ++ [sharedRequest]))
      { now := 100 } :=
  batchEnv.failsTheDead_along (by decide +kernel) { now := 100 }

end Trun
