import Trun.Scheduler.Accepting
import Trun.Scheduler.Assigning

/-!
# What holds of every state

`Sound` collects the index by status, the agreement of the two ways in which
workers and steps refer to each other, and the fields that a status promises.
Stale references, which a worker keeps to steps that were pruned, are allowed.
-/

namespace Trun

open Program

/-- A running step has an owner, and a failed one a time for its retry. -/
structure Step.Recorded (step : Step) : Prop where
  owner : step.status = .running → step.workerRunning.isSome = true
  retry : step.status = .failed → step.retry.isSome = true

namespace Step

theorem Recorded.congr {a b : Step} (ha : a.Recorded) (hstatus : b.status = a.status)
    (howner : b.workerRunning = a.workerRunning) (hretry : b.retry = a.retry) : b.Recorded where
  owner := by rw [hstatus, howner]; exact ha.owner
  retry := by rw [hstatus, hretry]; exact ha.retry

theorem Recorded.of_core {a b : Step} (ha : a.Recorded) (hcore : b.core = a.core) :
    b.Recorded :=
  ha.congr (congrArg Step.status hcore :) (congrArg Step.workerRunning hcore :)
    (congrArg Step.retry hcore :)

/-- A step that waits needs no record. -/
theorem recorded_of_status {step : Step} (hrunning : step.status ≠ .running)
    (hfailed : step.status ≠ .failed) : step.Recorded :=
  ⟨fun h => absurd h hrunning, fun h => absurd h hfailed⟩

theorem Recorded.settle {a : Step} (ha : a.Recorded) (newStatus : Status)
    (config : Option Config) (now : Time) (hconfig : newStatus = .failed → config ≠ none)
    (howner : newStatus = .running → a.workerRunning.isSome = true) :
    (a.settle config now newStatus).Recorded := by
  by_cases hignores : a.ignores newStatus = true
  · rw [settle_of_ignores _ _ _ _ hignores]
    exact ha
  · have hignores' : a.ignores newStatus = false := by simpa using hignores
    refine ⟨fun hrunning => ?_, settle_retry _ _ _ _ hignores' hconfig⟩
    rw [settle_workerRunning]
    rcases settle_status_cases a config now newStatus hignores' with h | h
    · exact howner (h.symm.trans hrunning)
    · rw [h.2] at hrunning
      cases hrunning

theorem Swept.recorded {config : Config} {now : Time} {a b : Step}
    (hswept : a.Swept config now b) (ha : a.Recorded) : b.Recorded where
  owner := by
    intro hrunning
    have hsame := hswept.running (by rw [hrunning]; rfl)
    rw [hsame.workerRunning]
    exact ha.owner (hsame.status ▸ hrunning)
  retry := hswept.retry ha.retry

end Step

namespace Scheduler

/-- The lists of the workers and the worker sets of the steps. -/
structure Rostered (s : Scheduler) : Prop where
  worker_id : ∀ worker, (s.workerAt worker).id = worker
  listed_lt : ∀ {worker ref}, ref ∈ (s.workerAt worker).steps → ref < s.nextRef
  /-- A worker only lists steps that know it, removed ones included. -/
  knows : ∀ {worker ref}, ref ∈ (s.workerAt worker).steps → worker ∈ (s.stepAt ref).workers
  /-- A step of the table only knows active workers that list it. -/
  lists : ∀ {worker ref}, s.Filed ref → worker ∈ (s.stepAt ref).workers →
    (s.activeWorkers.get? worker).isSome = true ∧ ref ∈ (s.workerAt worker).steps

/-- The step table or a worker refers to the object. -/
def Refers (s : Scheduler) (ref : Ref) : Prop :=
  s.Filed ref ∨ ∃ worker, ref ∈ (s.workerAt worker).steps

/-- What holds of every state as long as no removed step is handed out. -/
structure Sound (s : Scheduler) : Prop where
  stored : s.Stored
  rostered : s.Rostered
  recorded : ∀ ref, s.Refers ref → (s.stepAt ref).Recorded

variable {s t : Scheduler}

theorem Sound.index (hsound : s.Sound) : s.Indexed := hsound.stored.index

theorem Sound.retriable (hsound : s.Sound) : s.Retriable := fun ref hfiled =>
  (hsound.recorded ref (.inl hfiled)).retry

theorem Refers.imp {ref : Ref} (hrefers : t.Refers ref) (hfiled : t.Filed ref → s.Filed ref)
    (hlisted : ∀ worker, ref ∈ (t.workerAt worker).steps → ref ∈ (s.workerAt worker).steps) :
    s.Refers ref :=
  Or.imp hfiled (fun ⟨worker, hmem⟩ => ⟨worker, hlisted worker hmem⟩) hrefers

theorem Rostered.congr (hrostered : s.Rostered)
    (hworkers : ∀ worker, (t.workerAt worker).id = (s.workerAt worker).id ∧
      (t.workerAt worker).steps = (s.workerAt worker).steps)
    (hkeeps : ∀ worker, (s.activeWorkers.get? worker).isSome = true →
      (t.activeWorkers.get? worker).isSome = true)
    (hnext : s.nextRef ≤ t.nextRef) (hfiled : ∀ ref, t.Filed ref → s.Filed ref)
    (hsets : ∀ ref < s.nextRef, (t.stepAt ref).workers = (s.stepAt ref).workers)
    (hstored : s.Stored) : t.Rostered where
  worker_id := fun worker => (hworkers worker).1.trans (hrostered.worker_id worker)
  listed_lt := fun h => by
    rw [(hworkers _).2] at h
    exact (hrostered.listed_lt h).trans_le hnext
  knows := fun h => by
    rw [(hworkers _).2] at h
    rw [hsets _ (hrostered.listed_lt h)]
    exact hrostered.knows h
  lists := fun hf h => by
    rw [hsets _ (hstored.filed_lt (hfiled _ hf))] at h
    obtain ⟨hsome, hmem⟩ := hrostered.lists (hfiled _ hf) h
    exact ⟨hkeeps _ hsome, by rw [(hworkers _).2]; exact hmem⟩

/-- Object writes that keep the worker sets and the records. -/
theorem Sound.write (hsound : s.Sound) (hindex : t.Indexed) (hsame : SameTables s t)
    (hid : ∀ ref, (t.stepAt ref).id = (s.stepAt ref).id)
    (hworkers : ∀ ref, (t.stepAt ref).workers = (s.stepAt ref).workers)
    (hrecorded : ∀ ref, (s.stepAt ref).Recorded → (t.stepAt ref).Recorded) : t.Sound := by
  have hfiled : ∀ ref, t.Filed ref → s.Filed ref := fun ref h => by
    unfold Filed at h ⊢
    rwa [hsame.getStep, hid] at h
  have hlisted : ∀ worker, (t.workerAt worker).steps = (s.workerAt worker).steps :=
    fun worker => by rw [hsame.workerAt]
  refine ⟨hsound.stored.of_same hindex hsame, ?_, fun ref href => hrecorded ref
    (hsound.recorded ref (href.imp (hfiled ref) fun worker h => hlisted worker ▸ h))⟩
  refine hsound.rostered.congr (fun worker => ?_) (fun worker => ?_) (le_of_eq hsame.nextRef.symm)
    hfiled (fun ref _ => hworkers ref) hsound.stored
  · rw [hsame.workerAt]
    exact ⟨rfl, rfl⟩
  · rw [hsame.activeWorkers]
    exact fun h => h

theorem Sound.greets (hsound : s.Sound) (hgreets : Greets s t) : t.Sound where
  stored := hgreets.stored hsound.stored
  rostered := hsound.rostered.congr (fun worker => ⟨(hgreets.worker worker).1,
      (hgreets.worker worker).2.1⟩) hgreets.keeps (le_of_eq hgreets.nextRef.symm)
    (fun ref => (hgreets.filed ref).mp) (fun ref _ => by rw [hgreets.stepAt]) hsound.stored
  recorded := fun ref href => by
    rw [hgreets.stepAt]
    exact hsound.recorded ref (href.imp (hgreets.filed ref).mp
      fun worker h => (hgreets.worker worker).2.1 ▸ h)

theorem Sound.describes (hsound : s.Sound) (hdescribes : Describes s t) : t.Sound :=
  hsound.write (hdescribes.stored hsound.stored).index hdescribes.same
    (fun ref => (congrArg Step.id (hdescribes.core ref) :))
    (fun ref => (congrArg Step.workers (hdescribes.core ref) :))
    fun ref h => h.of_core (hdescribes.core ref)

/-- `set_status` on a step of the table. -/
theorem Sound.writes (hsound : s.Sound) {program : SchedulerM Unit} {objects : Ref → Step}
    (hwrites : Writes program s objects)
    (hid : ∀ ref, (objects ref).id = (s.stepAt ref).id)
    (hworkers : ∀ ref, (objects ref).workers = (s.stepAt ref).workers)
    (hrecorded : ∀ ref, (s.stepAt ref).Recorded → (objects ref).Recorded) :
    ∃ t, program.exec s = (.ok (), t) ∧ t.Sound ∧ SameTables s t ∧
      ∀ ref, t.stepAt ref = objects ref := by
  obtain ⟨t, hrun, hindex, hsame, hsteps⟩ := hwrites
  refine ⟨t, hrun, hsound.write hindex hsame ?_ ?_ ?_, hsame, hsteps⟩
  · intro ref
    rw [hsteps, hid]
  · intro ref
    rw [hsteps, hworkers]
  · intro ref h
    rw [hsteps]
    exact hrecorded ref h

theorem settled_plan (s : Scheduler) (config : Option Config) (now : Time) (ref : Ref)
    (newStatus : Status) (other : Ref) :
    (s.settled config now ref newStatus other).plan = (s.stepAt other).plan := by
  unfold settled
  split
  · rename_i hother
    rw [hother]
    exact Step.settle_plan ..
  · split
    · exact Step.settle_plan ..
    · rfl

theorem settled_recorded {config : Option Config} {now : Time} {ref : Ref} {newStatus : Status}
    (hconfig : newStatus = .failed → config ≠ none)
    (howner : newStatus = .running → (s.stepAt ref).workerRunning.isSome = true) (other : Ref)
    (hrecorded : (s.stepAt other).Recorded) :
    (s.settled config now ref newStatus other).Recorded := by
  unfold settled
  split
  · rename_i hother
    rw [← hother]
    exact hrecorded.settle _ _ now hconfig (by rw [hother]; exact howner)
  · split
    · rename_i hreleases
      have hnot : newStatus ≠ .running := by
        have := hreleases.2.1
        simp only [Step.releasesBatch, Bool.and_eq_true, bne_iff_ne] at this
        exact this.2
      have hsettled := hrecorded.settle newStatus _ now hconfig
        fun h => absurd h hnot
      exact hsettled.congr rfl rfl rfl
    · exact hrecorded

theorem Sound.setStatus (hsound : s.Sound) {ref : Ref} (hfiled : s.Filed ref) (now : Time)
    (newStatus : Status) (config : Option Config)
    (hconfig : newStatus = .failed → config ≠ none)
    (howner : newStatus = .running → (s.stepAt ref).workerRunning.isSome = true) :
    ∃ t, (setStatus now ref newStatus config).exec s = (.ok (), t) ∧ t.Sound ∧
      SameTables s t ∧ ∀ other, t.stepAt other = s.settled config now ref newStatus other :=
  hsound.writes (setStatus_spec hsound.index hfiled now _ _ hconfig)
    (fun other => (congrArg Step.id (settled_plan s config now ref newStatus other) :))
    (fun other => (congrArg Step.workers (settled_plan s config now ref newStatus other) :))
    fun other => settled_recorded hconfig howner other

/-! ## Pruning -/

theorem Inactivates.workerAt {workers : List WorkerId}
    (hinactivates : Inactivates workers s t) {worker : WorkerId} (hnot : worker ∉ workers) :
    t.workerAt worker = s.workerAt worker := by
  simp [Scheduler.workerAt, Dict.getD, hinactivates.worker, hnot]

theorem Inactivates.steps_eq_empty {workers : List WorkerId}
    (hinactivates : Inactivates workers s t) {worker : WorkerId} (hmem : worker ∈ workers) :
    (t.workerAt worker).steps = ∅ := by
  simp [Scheduler.workerAt, Dict.getD, hinactivates.worker, hmem]

theorem Inactivates.listed {workers : List WorkerId} (hinactivates : Inactivates workers s t)
    {worker : WorkerId} {ref : Ref} (hlisted : ref ∈ (t.workerAt worker).steps) :
    worker ∉ workers ∧ ref ∈ (s.workerAt worker).steps := by
  by_cases hmem : worker ∈ workers
  · rw [hinactivates.steps_eq_empty hmem] at hlisted
    exact absurd hlisted (OrderedSet.not_mem_empty ref)
  · rw [hinactivates.workerAt hmem] at hlisted
    exact ⟨hmem, hlisted⟩

theorem Sound.inactivates (hsound : s.Sound) {workers : List WorkerId}
    (hinactivates : Inactivates workers s t) : t.Sound where
  stored := hinactivates.stored
  rostered := by
    refine ⟨fun worker => ?_, fun h => ?_, fun {worker ref} h => ?_, fun {worker ref} hf h => ?_⟩
    · by_cases hmem : worker ∈ workers
      · simp [Scheduler.workerAt, Dict.getD, hinactivates.worker, hmem]
      · rw [hinactivates.workerAt hmem]
        exact hsound.rostered.worker_id worker
    · rw [hinactivates.nextRef]
      exact hsound.rostered.listed_lt (hinactivates.listed h).2
    · obtain ⟨hnot, hold⟩ := hinactivates.listed h
      have hknows := hsound.rostered.knows hold
      rw [hinactivates.object]
      split
      · exact (OrderedSet.mem_removeAll ..).mpr ⟨hknows, hnot⟩
      · exact hknows
    · have hold := (hinactivates.filed ref).mp hf
      rw [hinactivates.object, if_pos (hsound.index.mem_activeSteps.mpr hold)] at h
      obtain ⟨hworker, hnot⟩ := (OrderedSet.mem_removeAll ..).mp h
      obtain ⟨hsome, hmem⟩ := hsound.rostered.lists hold hworker
      rw [hinactivates.worker, if_neg hnot, hinactivates.workerAt hnot]
      exact ⟨hsome, hmem⟩
  recorded := by
    intro ref href
    have hold := hsound.recorded ref
      (href.imp (hinactivates.filed ref).mp fun worker h => (hinactivates.listed h).2)
    obtain ⟨step, hstep⟩ := hinactivates.plan ref
    rw [hstep]
    exact hold.congr rfl rfl rfl

theorem Sound.sweeps {config : Config} {now : Time} {assistants : List WorkerId}
    (hsound : s.Sound) (hsweeps : Sweeps config now assistants s t) : t.Sound :=
  hsound.write hsweeps.index hsweeps.same (fun ref => (hsweeps.object ref).id)
    (fun ref => (congrArg Step.workers (hsweeps.object ref).plan :))
    fun ref => (hsweeps.object ref).recorded

theorem Drops.filed {ids : List StepId} (hdrops : Drops ids s t) {ref : Ref}
    (hfiled : t.Filed ref) : s.Filed ref := by
  unfold Filed at hfiled ⊢
  rw [hdrops.getStep, hdrops.stepAt] at hfiled
  split_ifs at hfiled
  exact hfiled

theorem Sound.drops {ids : List StepId} (hsound : s.Sound) (hdrops : Drops ids s t) :
    t.Sound := by
  have hworker : ∀ worker, t.workerAt worker = s.workerAt worker := fun worker => by
    simp only [Scheduler.workerAt, hdrops.surroundings.activeWorkers]
  refine ⟨hdrops.stored, ?_, fun ref href => ?_⟩
  · refine hsound.rostered.congr (fun worker => ?_) (fun worker h => ?_)
      (le_of_eq hdrops.nextRef.symm) (fun ref => hdrops.filed) (fun ref _ => ?_) hsound.stored
    · rw [hworker]
      exact ⟨rfl, rfl⟩
    · rw [hdrops.surroundings.activeWorkers]
      exact h
    · rw [hdrops.stepAt]
  · rw [hdrops.stepAt]
    exact hsound.recorded ref (href.imp hdrops.filed fun worker h => hworker worker ▸ h)

theorem Sound.prunes {config : Config} {now : Time} (hsound : s.Sound)
    (hprunes : Prunes config now s t) : t.Sound := by
  obtain ⟨swept, removed, hsweeps, hdrops, -⟩ := hprunes.outcome
  exact ((hsound.inactivates hprunes.inactivates).sweeps hsweeps).drops hdrops

/-! ## Handing out -/

theorem Sound.receives {env : Env} {moment : Moment} (hsound : s.Sound)
    (hreceives : Receives env moment s t) : t.Sound := by
  cases hprune : env.config.pruneOnGetWork with
  | true =>
      obtain ⟨u, hprunes, hgreets⟩ := hreceives.prunes hprune
      exact (hsound.prunes hprunes).greets hgreets
  | false => exact hsound.greets (hreceives.greets hprune)

theorem Sound.prepares {now : Time} {args : GetWorkArgs} (hsound : s.Sound)
    (hprepares : Prepares now args s t) : t.Sound := by
  obtain ⟨u, hgreets, hsame⟩ := hprepares.greeted
  have hplan : ∀ ref, (t.stepAt ref).plan = (u.stepAt ref).plan := by
    intro ref
    rw [hprepares.object, hgreets.stepAt]
    split
    · exact Step.withStatus_plan ..
    · rfl
  refine (hsound.greets hgreets).write hprepares.index hsame
    (fun ref => (congrArg Step.id (hplan ref) :))
    (fun ref => (congrArg Step.workers (hplan ref) :)) fun ref h => ?_
  rw [hprepares.object]
  rw [hgreets.stepAt] at h
  split
  · refine Step.recorded_of_status ?_ ?_ <;> rw [Step.withStatus_status] <;> decide
  · exact h

theorem Sound.hands {change : Step → Step} {refs : List Ref} (hsound : s.Sound)
    (hhands : Hands change refs s t) (hid : ∀ step, (change step).id = step.id)
    (hworkers : ∀ step, (change step).workers = step.workers)
    (hrecorded : ∀ step, (change step).Recorded) : t.Sound := by
  refine hsound.write hhands.index hhands.same (fun ref => ?_) (fun ref => ?_) fun ref h => ?_
  · rw [hhands.object]
    split
    · exact hid _
    · rfl
  · rw [hhands.object]
    split
    · exact hworkers _
    · rfl
  · rw [hhands.object]
    split
    · exact hrecorded _
    · exact h

theorem Sound.handsOut {env : Env} {now : Time} {worker : WorkerId} {selection : Selection}
    {work : Work} (hsound : s.Sound) (hhands : HandsOut env now worker selection s work t) :
    t.Sound := by
  cases hhands with
  | nothing => exact hsound
  | single _ _ hands =>
      refine hsound.hands hands (fun step => by simp) (fun step => by simp) fun step => ?_
      exact ⟨fun _ => rfl, fun h => by simp at h⟩
  | batch _ _ hands =>
      refine hsound.hands hands (fun step => by simp) (fun step => by simp) fun step => ?_
      exact Step.recorded_of_status (by simp) (by simp)

theorem Sound.getsWork {env : Env} {moment : Moment} {args : GetWorkArgs}
    {outcome : Except Raised Reply} (hsound : s.Sound)
    (hworks : GetsWork env moment args s outcome t) : t.Sound := by
  cases hworks with
  | refused hreceives _ => exact hsound.receives hreceives
  | failed hreceives _ hprepares hgreets _ =>
      exact ((hsound.receives hreceives).prepares hprepares).greets hgreets
  | served hreceives _ hprepares hgreets hhands =>
      exact (((hsound.receives hreceives).prepares hprepares).greets hgreets).handsOut hhands

/-! ## Adding -/

/-- A new row for a step that nobody knows yet. -/
theorem Sound.setdefaultStep (hsound : s.Sound) {step : Step} (hworkers : step.workers = ∅)
    (hrecorded : step.Recorded) : (s.setdefaultStep step).Sound := by
  cases hget : s.getStep step.id with
  | some ref =>
      rw [hsound.index.setdefaultStep_eq hget]
      exact hsound
  | none =>
      have hobjects := stepAt_setdefaultStep hget
      have hold : ∀ ref, (s.setdefaultStep step).Filed ref → ref = s.nextRef ∨ s.Filed ref := by
        intro ref hfiled
        by_cases href : ref = s.nextRef
        · exact .inl href
        · unfold Filed at hfiled ⊢
          rw [hobjects, if_neg href, getStep_setdefaultStep hget] at hfiled
          split_ifs at hfiled with hid
          · exact absurd (Option.some.inj hfiled).symm href
          · exact .inr hfiled
      have hlt : ∀ {worker ref}, ref ∈ (s.workerAt worker).steps → ref ≠ s.nextRef :=
        fun h => Nat.ne_of_lt (hsound.rostered.listed_lt h)
      refine ⟨hsound.stored.setdefaultStep step, ⟨?_, ?_, ?_, ?_⟩, ?_⟩
      · intro worker
        rw [workerAt_setdefaultStep]
        exact hsound.rostered.worker_id worker
      · intro worker ref h
        rw [workerAt_setdefaultStep] at h
        exact (hsound.rostered.listed_lt h).trans_le (nextRef_le_setdefaultStep hsound.stored step)
      · intro worker ref h
        rw [workerAt_setdefaultStep] at h
        rw [hobjects, if_neg (hlt h)]
        exact hsound.rostered.knows h
      · intro worker ref hfiled h
        rw [hobjects] at h
        rw [activeWorkers_setdefaultStep, workerAt_setdefaultStep]
        split_ifs at h with href
        · rw [hworkers] at h
          exact absurd h (OrderedSet.not_mem_empty worker)
        · exact hsound.rostered.lists ((hold ref hfiled).resolve_left href) h
      · intro ref hrefers
        rw [hobjects]
        split
        · exact hrecorded
        · rename_i href
          refine hsound.recorded ref (hrefers.imp (fun h => (hold ref h).resolve_left href) ?_)
          intro worker h
          rwa [workerAt_setdefaultStep] at h

theorem Sound.receiveStep (hsound : s.Sound) (config : Config) (moment : Moment)
    (args : AddStepArgs) : (s.receiveStep config moment args).Sound := by
  have hgreeted := hsound.greets (greets_updateWorker s moment.now args.worker false)
  unfold Scheduler.receiveStep
  dsimp only
  split
  · have hstatus : (args.defaultStep config moment).status = .pending := rfl
    refine hgreeted.setdefaultStep rfl (Step.recorded_of_status ?_ ?_) <;>
      rw [hstatus] <;> decide
  · exact hgreeted

section Accepts

variable {config : Config} {moment : Moment} {args : AddStepArgs} {ref : Ref} {enabled : Bool}

theorem openedStep_plan_fields (s : Scheduler) (moment : Moment) (args : AddStepArgs)
    (ref : Ref) :
    (s.openedStep moment args ref).id = (s.stepAt ref).id ∧
      (s.openedStep moment args ref).workers = (s.stepAt ref).workers ∧
      (s.openedStep moment args ref).status = (s.stepAt ref).status ∧
      (s.openedStep moment args ref).retry = (s.stepAt ref).retry ∧
      (s.openedStep moment args ref).deps = (s.stepAt ref).deps ∧
      (s.openedStep moment args ref).schedulerDisableTime =
        (s.stepAt ref).schedulerDisableTime ∧
      (s.openedStep moment args ref).batchId = (args.batchId <|> (s.stepAt ref).batchId) := by
  simp only [openedStep, Step.described, claimStep, Step.claim]
  split <;> simp [joinStep, Step.joinBatch, Step.fillPlaceholder]

/-- A claim writes an owner only where there is none. -/
theorem openedStep_workerRunning (s : Scheduler) (moment : Moment) (args : AddStepArgs)
    (ref : Ref) :
    (s.openedStep moment args ref).workerRunning =
      if args.status = .running ∧ (s.stepAt ref).workerRunning = none then some args.worker
      else (s.stepAt ref).workerRunning := by
  have howner : ((s.joinStep args ref).stepAt ref).workerRunning =
      (s.stepAt ref).workerRunning := by simp [joinStep, Step.joinBatch, Step.fillPlaceholder]
  simp only [openedStep, Step.described, claimStep, Step.claimedBy, howner]
  split
  · rfl
  · exact howner

theorem openedStep_recorded (moment : Moment) (args : AddStepArgs)
    (hrecorded : (s.stepAt ref).Recorded) :
    (s.openedStep moment args ref).Recorded := by
  obtain ⟨-, -, hstatus, hretry, -⟩ := openedStep_plan_fields s moment args ref
  refine ⟨fun h => ?_, fun h => ?_⟩
  · rw [hstatus] at h
    rw [openedStep_workerRunning]
    split
    · rfl
    · exact hrecorded.owner h
  · rw [hstatus] at h
    rw [hretry]
    exact hrecorded.retry h

theorem newStatus_running : args.newStatus = .running ↔ args.status = .running := by
  unfold AddStepArgs.newStatus
  split
  · rename_i h
    simp [h]
  · rfl

theorem report_recorded (config : Config) (moment : Moment) (args : AddStepArgs)
    (hrecorded : (s.stepAt ref).Recorded) :
    ((s.openedStep moment args ref).report config moment args).Recorded := by
  have hopened := openedStep_recorded moment args hrecorded
  unfold Step.report
  split
  · refine hopened.settle _ _ moment.now (by simp) fun h => ?_
    rw [openedStep_workerRunning]
    split
    · rfl
    · rename_i hclaimed
      rw [newStatus_running] at h
      cases howner : (s.stepAt ref).workerRunning with
      | none => exact absurd ⟨h, howner⟩ hclaimed
      | some _ => rfl
  · exact hopened

theorem Accepts.filed (haccepts : Accepts config moment args ref enabled s t)
    (hstored : s.Stored) {other : Ref} (hfiled : t.Filed other) :
    s.Filed other ∨ (s.nextRef ≤ other ∧
      ∃ id, (t.stepAt other).core = (placeholder config moment args id).core) := by
  rcases haccepts.fresh hfiled with hold | ⟨-, -, -, hle, hcore, -⟩
  · exact .inl (hstored.index.filed hold)
  · exact .inr ⟨hle, _, hcore⟩

theorem Accepts.target_workers (haccepts : Accepts config moment args ref enabled s t) :
    (t.stepAt ref).workers =
      if args.registers enabled = true then (s.stepAt ref).workers.add args.worker
      else (s.stepAt ref).workers := by
  have hreport : ((s.openedStep moment args ref).report config moment args).workers =
      (s.stepAt ref).workers := by
    rw [← (openedStep_plan_fields s moment args ref).2.1]
    unfold Step.report
    split
    · exact (congrArg Step.workers (Step.settle_plan ..) :)
    · rfl
  have htarget := haccepts.target
  have hworkers : (t.stepAt ref).workers =
      ((((s.openedStep moment args ref).report config moment args).declare moment args).register
        config args enabled).workers := (congrArg Step.workers htarget :)
  rw [hworkers, ← hreport]
  rfl

theorem Accepts.other_workers (haccepts : Accepts config moment args ref enabled s t)
    {other : Ref} (hlt : other < s.nextRef) (hne : other ≠ ref) :
    (t.stepAt other).workers = (s.stepAt other).workers := by
  have hcore := haccepts.other other hlt hne
  split at hcore
  · have hplan := Step.settle_plan (s.stepAt other) (some config) moment.now args.newStatus
    exact (congrArg Step.workers hcore :).trans (congrArg Step.workers hplan :)
  · exact (congrArg Step.workers hcore :)

theorem Accepts.workerAt (haccepts : Accepts config moment args ref enabled s t)
    (worker : WorkerId) :
    t.workerAt worker =
      if args.registers enabled = true ∧ worker = args.worker then
        { s.workerAt args.worker with
          steps := ((s.workerAt args.worker).steps.add ref).rehash moment.refOrder }
      else s.workerAt worker := by
  simp only [Scheduler.workerAt, haccepts.activeWorkers]
  by_cases hregisters : args.registers enabled = true
  · rw [if_pos hregisters]
    by_cases hworker : worker = args.worker <;> simp [Dict.getD, hregisters, hworker]
  · simp [hregisters]

theorem Sound.accepts (hsound : s.Sound) (hfiled : s.Filed ref)
    (haccepts : Accepts config moment args ref enabled s t) : t.Sound := by
  have hlisted : ∀ {worker other}, other ∈ (t.workerAt worker).steps →
      other ∈ (s.workerAt worker).steps ∨
        (args.registers enabled = true ∧ worker = args.worker ∧ other = ref) := by
    intro worker other h
    rw [haccepts.workerAt] at h
    split at h
    · rename_i hcondition
      simp only [OrderedSet.mem_rehash, OrderedSet.mem_add] at h
      rcases h with h | h
      · exact .inr ⟨hcondition.1, hcondition.2, h⟩
      · rw [hcondition.2]
        exact .inl h
    · exact .inl h
  have hrefLt := hsound.stored.filed_lt hfiled
  have hworkers : ∀ other < s.nextRef, ∀ worker, worker ∈ (t.stepAt other).workers ↔
      worker ∈ (s.stepAt other).workers ∨
        (args.registers enabled = true ∧ worker = args.worker ∧ other = ref) := by
    intro other hlt worker
    by_cases hother : other = ref
    · subst hother
      rw [haccepts.target_workers]
      by_cases hregisters : args.registers enabled = true
      · simp [hregisters, or_comm]
      · simp [hregisters]
    · rw [haccepts.other_workers hlt hother]
      simp [hother]
  refine ⟨haccepts.stored, ⟨?_, ?_, ?_, ?_⟩, ?_⟩
  · intro worker
    rw [haccepts.workerAt]
    split
    · rename_i hcondition
      rw [hcondition.2]
      exact hsound.rostered.worker_id args.worker
    · exact hsound.rostered.worker_id worker
  · intro worker other h
    rcases hlisted h with hold | ⟨-, -, rfl⟩
    · exact (hsound.rostered.listed_lt hold).trans_le haccepts.nextRef_le
    · exact hrefLt.trans_le haccepts.nextRef_le
  · intro worker other h
    rcases hlisted h with hold | hnew
    · rw [hworkers other (hsound.rostered.listed_lt hold)]
      exact .inl (hsound.rostered.knows hold)
    · rw [hworkers other (hnew.2.2 ▸ hrefLt)]
      exact .inr hnew
  · intro worker other hf h
    rcases haccepts.filed hsound.stored hf with hold | ⟨-, id, hcore⟩
    · rw [hworkers other (hsound.stored.filed_lt hold)] at h
      rw [haccepts.workerAt, haccepts.activeWorkers]
      rcases h with h | ⟨hregisters, rfl, rfl⟩
      · obtain ⟨hsome, hmem⟩ := hsound.rostered.lists hold h
        constructor
        · split
          · rw [Dict.get?_set]
            split
            · rfl
            · exact hsome
          · exact hsome
        · split
          · rename_i hcondition
            simp only [OrderedSet.mem_rehash, OrderedSet.mem_add]
            exact .inr (hcondition.2 ▸ hmem)
          · exact hmem
      · simp [hregisters]
    · have hempty : (t.stepAt other).workers = ∅ :=
        (congrArg Step.workers hcore :)
      rw [hempty] at h
      exact absurd h (OrderedSet.not_mem_empty worker)
  · intro other hrefers
    have hcases : s.Refers other ∨
        ∃ id, (t.stepAt other).core = (placeholder config moment args id).core := by
      rcases hrefers with hf | ⟨worker, h⟩
      · exact (haccepts.filed hsound.stored hf).imp .inl fun h => h.2
      · rcases hlisted h with hold | ⟨-, -, rfl⟩
        · exact .inl (.inr ⟨worker, hold⟩)
        · exact .inl (.inl hfiled)
    rcases hcases with hold | ⟨id, hcore⟩
    · have hlt : other < s.nextRef := by
        rcases hold with h | ⟨worker, h⟩
        · exact hsound.stored.filed_lt h
        · exact hsound.rostered.listed_lt h
      have hrecorded := hsound.recorded other hold
      by_cases hother : other = ref
      · subst hother
        exact ((report_recorded config moment args hrecorded).congr
          (b := ((((s.openedStep moment args other).report config moment
            args).declare moment args).register config args enabled)) rfl rfl rfl).of_core
              haccepts.target
      · have hcore := haccepts.other other hlt hother
        split at hcore
        · rename_i hpasses
          have hnot : args.newStatus ≠ .running := by
            have hpass := hpasses.1
            simp only [Step.passesOn, Step.releasesBatch, Bool.and_eq_true, bne_iff_ne] at hpass
            exact hpass.2.2
          have hsettled := hrecorded.settle args.newStatus (some config) moment.now (by simp) fun h
            => absurd h hnot
          exact (hsettled.congr (b := ((s.stepAt other).settle (some config) moment.now
            args.newStatus).withoutBatch) rfl rfl rfl).of_core hcore
        · exact hrecorded.of_core hcore
    · have hstatus : (t.stepAt other).status = .unknown := (congrArg Step.status hcore :)
      refine Step.recorded_of_status ?_ ?_ <;> rw [hstatus] <;> decide

theorem Sound.addsStep {outcome : Except Raised Unit} (hsound : s.Sound)
    (hadds : AddsStep config moment args s outcome t) : t.Sound := by
  cases hadds with
  | dropped => exact hsound
  | accepted hget _ _ haccepts => exact hsound.accepts (hsound.index.filed hget) haccepts
  | @failed target _ hget _ _ _ =>
      have hjoined : (s.joinStep args target).Sound := by
        refine hsound.write (hsound.stored.joinStep args target).index
          (sameTables_updateStep ..) (fun ref => ?_) (fun ref => ?_) fun ref h => ?_ <;>
          rw [joinStep, stepAt_updateStep]
        · split <;> rfl
        · split <;> rfl
        · split
          · exact h.congr rfl rfl rfl
          · exact h
      refine hjoined.write (hjoined.index.updateStep rfl rfl) (sameTables_updateStep ..)
        (fun ref => ?_) (fun ref => ?_) fun ref h => ?_ <;> rw [stepAt_updateStep]
      · split <;> rfl
      · split <;> rfl
      · split
        · exact ⟨fun _ => rfl, h.retry⟩
        · exact h

end Accepts

end Scheduler

end Trun
