import Trun.Scheduler.BatchRuns
import Trun.Scheduler.Batching

/-!
# Batches that are completed

The report on the combined step of a batch reaches every member and no other step, as long
as nothing has meddled with the batch since it was handed out.
-/

namespace Trun

open Program

namespace Scheduler

variable {s t : Scheduler} {env : Env} {config : Config} {moment : Moment} {ref : Ref}

/-- A batch as it has been handed out. -/
theorem HandsOut.onTrack {now : Time} {worker : WorkerId} {selection : Selection}
    {batchId : BatchId} {stepIds : List StepId} {family : Family} {module : Option String}
    {params : Dict String ParamValue}
    (hhands : HandsOut env now worker selection s (.batch batchId stepIds family module params) t)
    (hindex : s.Indexed) (hfiled : ∀ ref ∈ selection.picks, s.Filed ref)
    (hnew : ∀ ref ∈ s.activeSteps, ¬(s.stepAt ref).RunsUnder batchId) :
    t.OnTrack ⟨worker, batchId, stepIds, none⟩ := by
  cases hhands with
  | batch hsize hids hands =>
      rw [Selection.picks, if_pos hsize] at hfiled
      constructor
      · intro id hinvolves
        have hmem : id ∈ stepIds := hinvolves.resolve_right (by rintro ⟨⟩)
        rw [hids] at hmem
        obtain ⟨ref, href, rfl⟩ := List.mem_map.mp hmem
        refine ⟨ref, (hands.same.getStep _).trans (hfiled ref href), ?_⟩
        rw [hands.object, if_pos href]
        exact ⟨Step.reserved_status .., rfl, rfl⟩
      · intro id ref hget hruns
        rw [hands.same.getStep] at hget
        rw [hands.object] at hruns
        split at hruns
        · rename_i href
          refine .inl ?_
          rw [hids]
          exact List.mem_map.mpr ⟨ref, href, hindex.step_id hget⟩
        · exact absurd hruns (hnew ref (hindex.mem_activeSteps.mpr (hindex.filed hget)))

/-! ## The start of the combined step -/

/-- The start finds the combined step free, or with its worker already, and takes effect. -/
def StartsRun (s : Scheduler) (config : Config) (moment : Moment) (args : AddStepArgs)
    (ref : Ref) : Prop :=
  (s.stepAt ref).dropsClaim config moment args (s.workerAt args.worker).enabled = false ∧
    ¬s.claimRaises args ref ∧ (s.stepAt ref).ignores .running = false ∧
    ((s.stepAt ref).workerRunning = none ∨ (s.stepAt ref).workerRunning = some args.worker)

instance (s : Scheduler) (config : Config) (moment : Moment) (args : AddStepArgs) (ref : Ref) :
    Decidable (s.StartsRun config moment args ref) := by
  unfold StartsRun; infer_instance

section Starts

variable {args : AddStepArgs} {enabled : Bool}

/-- The worker owns the combined step in front of the guard, whoever is recorded. -/
theorem openedStep_owner_of_start (moment : Moment) (hstatus : args.status = .running)
    (howner : (s.stepAt ref).workerRunning = none ∨
      (s.stepAt ref).workerRunning = some args.worker) :
    (s.openedStep moment args ref).workerRunning = some args.worker := by
  rcases howner with hnone | hown
  · rw [openedStep_workerRunning, if_pos ⟨hstatus, hnone⟩]
  · exact openedStep_owner hown

/-- The combined step afterwards. -/
theorem Accepts.target_started (haccepts : Accepts config moment args ref enabled s t)
    (hstatus : args.status = .running) {batchId : BatchId} (hbatch : args.batchId = some batchId)
    (hignores : (s.stepAt ref).ignores .running = false)
    (howner : (s.stepAt ref).workerRunning = none ∨
      (s.stepAt ref).workerRunning = some args.worker) :
    (t.stepAt ref).status = .running ∧ (t.stepAt ref).batchId = some batchId ∧
      (t.stepAt ref).workerRunning = some args.worker := by
  obtain ⟨-, -, -, -, -, -, hopenedBatch⟩ := openedStep_plan_fields s moment args ref
  have hopenedOwner := openedStep_owner_of_start moment hstatus howner
  have hnew : args.newStatus = .running := newStatus_running.mpr hstatus
  have hreport : (s.openedStep moment args ref).report config moment args =
      (s.openedStep moment args ref).settle (some config) moment.now .running := by
    unfold Step.report
    rw [if_pos, hnew]
    simp [Step.acceptsReport, AddStepArgs.startedARun, hstatus, hopenedOwner]
  have hignored : (s.openedStep moment args ref).ignores .running = false :=
    (openedStep_ignores s moment args ref .running).trans hignores
  have hkept : (s.openedStep moment args ref).releasesBatch .running = false := by
    simp [Step.releasesBatch]
  refine ⟨?_, ?_, (congrArg Step.workerRunning haccepts.target :).trans ?_⟩
  · rw [haccepts.target_status, hreport]
    exact Step.settle_status _ _ _ _ hignored (by decide)
  · rw [haccepts.target_batchId, hreport, Step.settle_batchId, hkept, if_neg (by simp),
      hopenedBatch, hbatch]
    rfl
  · change ((s.openedStep moment args ref).report config moment args).workerRunning = _
    rw [hreport, Step.settle_workerRunning, hopenedOwner]

/-- A start passes nothing on. -/
theorem not_passesOn_start (hstatus : args.status = .running) (other : Ref) :
    ¬s.PassesOn moment args ref other := by
  have hnew : args.newStatus = .running := newStatus_running.mpr hstatus
  simp [PassesOn, Step.passesOn, Step.releasesBatch, hnew]

/-- The worker has started the combined step of the batch. -/
theorem OnTrack.starts (htrack : s.OnTrack batch) (hfresh : batch.combined = none)
    (hstored : s.Stored) (hget : s.getStep args.stepId = some ref)
    (hworker : args.worker = batch.worker) (hstatus : args.status = .running)
    (hbatch : args.batchId = some batch.batchId)
    (hignores : (s.stepAt ref).ignores .running = false)
    (howner : (s.stepAt ref).workerRunning = none ∨
      (s.stepAt ref).workerRunning = some args.worker)
    (haccepts : Accepts config moment args ref enabled s t) :
    t.OnTrack { batch with combined := some args.stepId } := by
  obtain ⟨hruns, hunder, howned⟩ := haccepts.target_started hstatus hbatch hignores howner
  have hothers : ∀ other < s.nextRef, other ≠ ref → (s.stepAt other).SameRun (t.stepAt other) := by
    intro other hlt hne
    have hcore := haccepts.other other hlt hne
    rw [if_neg (not_passesOn_start hstatus other)] at hcore
    exact Step.sameRun_of_core hcore
  have hid := hstored.index.step_id hget
  constructor
  · intro id hinvolves
    by_cases hcombined : args.stepId = id
    · subst hcombined
      refine ⟨ref, haccepts.keeps hget, ?_, hunder, hworker ▸ howned⟩
      rw [hruns, BatchRun.statusOf, if_pos rfl]
    · have hmember : batch.Involves id :=
        .inl (hinvolves.resolve_right fun h => hcombined (Option.some.inj h))
      obtain ⟨other, hrow, htakes⟩ := htrack.takes id hmember
      have hne : other ≠ ref := by
        rintro rfl
        exact hcombined (hid.symm.trans (hstored.index.step_id hrow))
      have hkept := htakes.sameRun (hothers other (hstored.rows_allocated id other hrow) hne)
      refine ⟨other, haccepts.keeps hrow, ?_, hkept.batchId, hkept.owner⟩
      rw [hkept.status, BatchRun.statusOf, BatchRun.statusOf, hfresh, if_neg (by simp),
        if_neg fun h => hcombined (Option.some.inj h)]
  · intro id other hrow hunderBatch
    by_cases hcombined : args.stepId = id
    · exact .inr (congrArg some hcombined)
    · rcases haccepts.fresh hrow with hold | ⟨-, -, -, -, hcore, -⟩
      · have hne : other ≠ ref := by
          rintro rfl
          exact hcombined (hid.symm.trans (hstored.index.step_id hold))
        have hbefore :=
          (hothers other (hstored.rows_allocated id other hold) hne).runsUnder hunderBatch
        refine .inl ((htrack.only id other hold hbefore).resolve_right fun h => ?_)
        rw [hfresh] at h
        cases h
      · have hunknown : (t.stepAt other).status = .unknown := (congrArg Step.status hcore :)
        rw [Step.RunsUnder, hunknown] at hunderBatch
        cases hunderBatch.2

/-! ## The report on the combined step -/

/-- What a report on the combined step makes of the batch: every member has the reported
status, or is disabled after a failure, and no step outside the batch has changed its own. -/
structure CompletesBatch (batch : BatchRun) (status : Status) (s t : Scheduler) : Prop where
  members : ∀ id ∈ batch.members, ∃ ref, t.getStep id = some ref ∧
    (t.stepAt ref).status ≠ .batchRunning ∧ ((t.stepAt ref).status = status ∨
      (status = .failed ∧ (t.stepAt ref).status = .disabled))
  others : ∀ id ref, s.getStep id = some ref → ¬batch.Involves id →
    t.getStep id = some ref ∧ (t.stepAt ref).status = (s.stepAt ref).status

theorem OnTrack.reports (htrack : s.OnTrack batch) (hcombined : batch.combined = some args.stepId)
    (hstored : s.Stored) (hget : s.getStep args.stepId = some ref)
    (hworker : args.worker = batch.worker) (hstatus : args.status = .done ∨ args.status = .failed)
    (hbatch : args.batchId = none) (haccepts : Accepts config moment args ref enabled s t) :
    CompletesBatch batch args.status s t := by
  have htakes := htrack.takesPart (.inr hcombined) hget
  have hruns : (s.stepAt ref).status = .running := by
    rw [htakes.status, BatchRun.statusOf, if_pos hcombined]
  obtain ⟨-, -, hopened, -, -, -, hopenedBatch⟩ := openedStep_plan_fields s moment args ref
  rw [hbatch, htakes.batchId] at hopenedBatch
  rw [hruns] at hopened
  have howner : (s.openedStep moment args ref).workerRunning = some args.worker := by
    rw [openedStep_owner htakes.owner, hworker]
  have hnew : args.newStatus = args.status := by
    unfold AddStepArgs.newStatus
    rcases hstatus with h | h <;> simp [h]
  have haccepted : (s.openedStep moment args ref).acceptsReport args = true := by
    rcases hstatus with h | h <;>
      simp [Step.acceptsReport, AddStepArgs.startedARun, h, howner]
  have hpasses : (s.openedStep moment args ref).passesOn args = true := by
    rw [Step.passesOn, haccepted, hnew]
    rcases hstatus with h | h <;> simp [Step.ignores, Step.releasesBatch, hopened, hopenedBatch, h]
  -- a member takes the status that is passed on
  have hends : ∀ step : Step, step.status.isRunning = true →
      (step.settle (some config) moment.now args.newStatus).status ≠ .batchRunning ∧
        ((step.settle (some config) moment.now args.newStatus).status = args.status ∨
          (args.status = .failed ∧
            (step.settle (some config) moment.now args.newStatus).status = .disabled)) := by
    intro step hrunning
    have hignores : step.ignores args.newStatus = false := by
      rw [hnew]
      rcases Status.isRunning_iff.mp hrunning with h | h <;>
        rcases hstatus with h' | h' <;> simp [Step.ignores, h, h']
    rw [hnew] at hignores ⊢
    have hcases := Step.settle_status_cases step (some config) moment.now args.status hignores
    refine ⟨fun hbatchRunning => ?_, hcases⟩
    rcases hcases with h | ⟨-, h⟩
    · rw [h] at hbatchRunning
      rcases hstatus with h' | h' <;> rw [h'] at hbatchRunning <;> cases hbatchRunning
    · rw [h] at hbatchRunning
      cases hbatchRunning
  have hid := hstored.index.step_id hget
  constructor
  · intro id hmember
    obtain ⟨other, hrow, hpart⟩ := htrack.takes id (.inl hmember)
    refine ⟨other, haccepts.keeps hrow, ?_⟩
    by_cases href : other = ref
    · subst href
      rw [haccepts.target_status, Step.report, if_pos haccepted]
      exact hends _ (by rw [hopened]; rfl)
    · have hother : batch.combined ≠ some id := by
        rw [hcombined]
        rintro h
        obtain rfl := Option.some.inj h
        exact href (Option.some.inj (hrow.symm.trans hget))
      have hwaits : (s.stepAt other).status = .batchRunning := by
        rw [hpart.status, BatchRun.statusOf, if_neg hother]
      have hcore := haccepts.other other (hstored.rows_allocated id other hrow) href
      rw [if_pos ⟨hpasses, hstored.index.filed hrow, hwaits,
        by rw [hpart.batchId, hopenedBatch]; rfl⟩] at hcore
      have hsettled : (t.stepAt other).status =
          ((s.stepAt other).settle (some config) moment.now args.newStatus).status :=
        (congrArg Step.status hcore :)
      rw [hsettled]
      exact hends _ (by rw [hwaits]; rfl)
  · intro id other hrow houtside
    refine ⟨haccepts.keeps hrow, ?_⟩
    have href : other ≠ ref := by
      rintro rfl
      refine houtside (.inr (hcombined.trans (congrArg some ?_)))
      exact hid.symm.trans (hstored.index.step_id hrow)
    have hcore := haccepts.other other (hstored.rows_allocated id other hrow) href
    rw [if_neg] at hcore
    · exact (congrArg Step.status hcore :)
    · rintro ⟨-, -, hwaits, hsame⟩
      rw [hopenedBatch] at hsame
      exact houtside (htrack.only id other hrow ⟨hsame, by rw [hwaits]; rfl⟩)

end Starts

end Scheduler

open Scheduler

/-! ## The course of a batch -/

namespace Env

variable (env : Env)

/-- A request of a worker other than the given one, at a time when no worker has been silent
for too long. -/
def ByOthers (worker : WorkerId) (s : Scheduler) (event : Event) : Prop :=
  event.request.isWorkers = true ∧ event.request.sender ≠ some worker ∧
    (env.prunes event = true → s.silentWorkers env.config event.moment.now = [])

instance (worker : WorkerId) (s : Scheduler) (event : Event) :
    Decidable (env.ByOthers worker s event) := by
  unfold ByOthers; infer_instance

def HandsBatch (s : Scheduler) (moment : Moment) (args : GetWorkArgs) (batchId : BatchId)
    (members : List StepId) : Prop :=
  match env.outcome s ⟨moment, .getWork args⟩ with
  | .ok (.work ⟨_, .batch id stepIds _ _ _⟩) => id = batchId ∧ stepIds = members
  | _ => False

instance (s : Scheduler) (moment : Moment) (args : GetWorkArgs) (batchId : BatchId)
    (members : List StepId) : Decidable (env.HandsBatch s moment args batchId members) := by
  unfold HandsBatch
  split <;> infer_instance

/-- No step runs under the id of the batch when `get_work` hands it out. -/
def FindsNew (s : Scheduler) (moment : Moment) (args : GetWorkArgs) (batchId : BatchId) : Prop :=
  ∀ ref ∈ (env.ranked s moment args).activeSteps,
    ¬((env.ranked s moment args).stepAt ref).RunsUnder batchId

instance (s : Scheduler) (moment : Moment) (args : GetWorkArgs) (batchId : BatchId) :
    Decidable (env.FindsNew s moment args batchId) := by
  unfold FindsNew; infer_instance

/-- The start of the combined step takes effect and makes the worker its owner. -/
def StartsCombined (s : Scheduler) (moment : Moment) (args : AddStepArgs) : Prop :=
  let received := s.receiveStep env.config moment args
  ∃ ref ∈ received.getStep args.stepId, received.StartsRun env.config moment args ref

instance (s : Scheduler) (moment : Moment) (args : AddStepArgs) :
    Decidable (env.StartsCombined s moment args) := by
  unfold StartsCombined; infer_instance

variable {env} {s : Scheduler} {moment : Moment}

/-- The batch in the state in which it has been handed out. -/
theorem handedOut_onTrack {args : GetWorkArgs} {batchId : BatchId} {members : List StepId}
    (hsound : s.Sound) (hlooks : env.LooksAtFiledSteps s moment args)
    (hhanded : env.HandsBatch s moment args batchId members)
    (hnew : env.FindsNew s moment args batchId) :
    (env.after s ⟨moment, .getWork args⟩).OnTrack ⟨args.worker, batchId, members, none⟩ := by
  unfold HandsBatch at hhanded
  by_cases henabled : ((env.received s moment args).workerAt args.worker).enabled = true
  · obtain ⟨hgreeted, hgreets, -⟩ :=
      countPending_meets moment args.worker (env.ranked s moment args)
    obtain ⟨-, hprepares, -⟩ :=
      ranked_noted env moment args hsound.stored hsound.retriable
    obtain ⟨-, -, hrstored, -⟩ :=
      receiveRequest_spec env moment args hsound.stored hsound.retriable
    have hrankedStored := hprepares.stored hrstored
    rcases hsound.after_getWork_counts env moment hlooks henabled with
      ⟨error, -, herror⟩ | ⟨pending, counted, work, hcount, houtcome, hhands, -⟩
    · rw [herror] at hhanded
      cases hhanded
    · rw [houtcome] at hhanded
      obtain ⟨family, module, params, rfl⟩ : ∃ family module params,
          work = .batch batchId members family module params := by
        cases work with
        | batch id stepIds family module params =>
            obtain ⟨rfl, rfl⟩ := hhanded
            exact ⟨family, module, params, rfl⟩
        | nothing | single => cases hhanded
      simp only [Program.final, hcount] at hgreets
      replace hgreets : Greets (env.ranked s moment args) counted := hgreets
      refine hhands.onTrack (hgreets.stored hrankedStored).index (fun ref hpick => ?_)
        fun ref href => ?_
      · rw [hgreets.filed]
        exact (picks_filed env moment args ref hsound.stored
          hsound.retriable henabled hlooks hpick).1
      · rw [hgreets.stepAt]
        refine hnew ref (hrankedStored.index.mem_activeSteps.mpr ((hgreets.filed ref).mp ?_))
        exact (hgreets.stored hrankedStored).index.mem_activeSteps.mp href
  · rw [(hsound.after_getWork_disabled env moment henabled).2] at hhanded
    cases hhanded

/-- The batch in the state in which its combined step runs. -/
theorem started_onTrack {batch : BatchRun} {args : AddStepArgs} (hsound : s.Sound)
    (htrack : s.OnTrack batch) (hfresh : batch.combined = none)
    (hworker : args.worker = batch.worker) (hstatus : args.status = .running)
    (hbatch : args.batchId = some batch.batchId) (hstarts : env.StartsCombined s moment args) :
    (env.after s ⟨moment, .addStep args⟩).OnTrack { batch with combined := some args.stepId } := by
  obtain ⟨ref, hget, hclaim, hfound, hignores, howner⟩ := hstarts
  obtain ⟨outcome, hadds, -⟩ := hsound.after_addStep env moment args
  have hreceived := htrack.received hsound.stored env.config moment args
  have hrstored := receiveStep_stored hsound.stored env.config moment args
  generalize s.receiveStep env.config moment args = received at *
  generalize env.after s ⟨moment, .addStep args⟩ = t at *
  cases hadds with
  | dropped hdropped =>
      rw [hdropped ref hget] at hclaim
      cases hclaim
  | accepted hget' _ _ haccepts =>
      obtain rfl := Option.some.inj (hget.symm.trans hget')
      exact hreceived.starts hfresh hrstored hget hworker hstatus hbatch hignores howner haccepts
  | failed hget' _ hraises _ =>
      obtain rfl := Option.some.inj (hget.symm.trans hget')
      exact absurd hraises hfound

/-- The report of the worker on the combined step. -/
theorem reported_completes {batch : BatchRun} {args : AddStepArgs} (hsound : s.Sound)
    (htrack : s.OnTrack batch) (hcombined : batch.combined = some args.stepId)
    (hworker : args.worker = batch.worker) (hstatus : args.status = .done ∨ args.status = .failed)
    (hbatch : args.batchId = none) :
    CompletesBatch batch args.status s (env.after s ⟨moment, .addStep args⟩) := by
  obtain ⟨outcome, hadds, -⟩ := hsound.after_addStep env moment args
  have hreceived := htrack.received hsound.stored env.config moment args
  have hrstored := receiveStep_stored hsound.stored env.config moment args
  have hreceipt := hsound.stored.receipt env.config moment args
  obtain ⟨ref, hget, htakes⟩ := hreceived.takes args.stepId (.inr hcombined)
  generalize s.receiveStep env.config moment args = received at *
  generalize env.after s ⟨moment, .addStep args⟩ = t at *
  have hruns : (received.stepAt ref).status = .running := by
    rw [htakes.status, BatchRun.statusOf, if_pos hcombined]
  have hcompletes : CompletesBatch batch args.status received t := by
    cases hadds with
    | dropped hdropped =>
        have hclaim := hdropped ref hget
        rcases hstatus with h | h <;> simp [Step.dropsClaim, hruns, h] at hclaim
    | accepted hget' _ _ haccepts =>
        obtain rfl := Option.some.inj (hget.symm.trans hget')
        exact hreceived.reports hcombined hrstored hget hworker hstatus hbatch haccepts
    | failed _ _ hraises _ =>
        have hclaims := hraises.1.1
        rcases hstatus with h | h <;> rw [h] at hclaims <;> cases hclaims
  refine ⟨hcompletes.members, fun id other hrow houtside => ?_⟩
  rw [← hreceipt.stepAt other (hsound.stored.rows_allocated id other hrow)]
  exact hcompletes.others id other (hreceipt.keeps hrow) houtside

/-- The batch after any requests of other workers. -/
theorem onTrack_along {batch : BatchRun} {events : List Event} (hlasting : Lasting Sound s)
    (htrack : s.OnTrack batch) (hothers : Along env.after (env.ByOthers batch.worker) s events)
    (hspares : Along env.after (env.SparesBatch batch) s events) :
    Lasting Sound (env.run s events) ∧ (env.run s events).OnTrack batch := by
  induction events generalizing s with
  | nil => exact ⟨hlasting, htrack⟩
  | cons event rest ih =>
      obtain ⟨⟨hworkers, hother, -⟩, hothers⟩ := hothers
      obtain ⟨hspared, hspares⟩ := hspares
      exact ih (Sound.after hlasting hspared.handsOut).1
        (onTrack_after hlasting.1 htrack hworkers hother hspared) hothers hspares

end Env

/-- A worker gets a batch, starts its combined step and reports on it; others send requests
before, between and between again. -/
structure BatchCourse where
  front : List Event
  handMoment : Moment
  hand : GetWorkArgs
  batchId : BatchId
  members : List StepId
  before : List Event
  startMoment : Moment
  start : AddStepArgs
  between : List Event
  reportMoment : Moment
  report : AddStepArgs

namespace BatchCourse

variable (course : BatchCourse) (env : Env) (s : Scheduler)

/-- All requests in the order in which they arrive. -/
def events : List Event :=
  course.front ++ ⟨course.handMoment, .getWork course.hand⟩ :: (course.before ++
    ⟨course.startMoment, .addStep course.start⟩ :: (course.between ++
      [⟨course.reportMoment, .addStep course.report⟩]))

def reserved : BatchRun := ⟨course.hand.worker, course.batchId, course.members, none⟩

def started : BatchRun := { course.reserved with combined := some course.start.stepId }

def atHand : Scheduler := env.run s course.front

def handed : Scheduler :=
  env.after (course.atHand env s) ⟨course.handMoment, .getWork course.hand⟩

def atStart : Scheduler := env.run (course.handed env s) course.before

def running : Scheduler :=
  env.after (course.atStart env s) ⟨course.startMoment, .addStep course.start⟩

def atReport : Scheduler := env.run (course.running env s) course.between

def reported : Scheduler :=
  env.after (course.atReport env s) ⟨course.reportMoment, .addStep course.report⟩

/-- `get_work` returns the batch, the worker starts the combined step under its id and reports
on it, and all other requests meanwhile are sent by others. -/
structure Happens : Prop where
  hands : env.HandsBatch (course.atHand env s) course.handMoment course.hand course.batchId
    course.members
  starter : course.start.worker = course.hand.worker
  starts : course.start.status = .running ∧ course.start.batchId = some course.batchId
  reporter : course.report.worker = course.hand.worker
  reports : course.report.stepId = course.start.stepId ∧ course.report.batchId = none ∧
    (course.report.status = .done ∨ course.report.status = .failed)
  before : Along env.after (env.ByOthers course.hand.worker) (course.handed env s) course.before
  between : Along env.after (env.ByOthers course.hand.worker) (course.running env s)
    course.between

/-- Nothing meddles with the batch. -/
structure Undisturbed : Prop where
  front : Along env.after (HandsOutFiledSteps env) s course.front
  hands : env.LooksAtFiledSteps (course.atHand env s) course.handMoment course.hand
  new : env.FindsNew (course.atHand env s) course.handMoment course.hand course.batchId
  before : Along env.after (env.SparesBatch course.reserved) (course.handed env s) course.before
  starts : env.StartsCombined (course.atStart env s) course.startMoment course.start
  between : Along env.after (env.SparesBatch course.started) (course.running env s)
    course.between

/-- The report ends the run of every member, and of no other step. -/
def Completes : Prop :=
  CompletesBatch course.started course.report.status (course.atReport env s)
    (course.reported env s)

variable {course env}

/-- In every run in which nothing meddles with a batch, the report on its combined step completes
the batch. -/
theorem completes {resources : Resources} (hhappens : course.Happens env (.initial resources))
    (hundisturbed : course.Undisturbed env (.initial resources)) :
    course.Completes env (.initial resources) := by
  obtain ⟨hrunning, hid⟩ := hhappens.starts
  obtain ⟨hcombined, hbatch, hstatus⟩ := hhappens.reports
  have hfront : Lasting Sound (course.atHand env (.initial resources)) :=
    env.run_sound hundisturbed.front
  have hhands : HandsOutFiledSteps env (course.atHand env (.initial resources))
      ⟨course.handMoment, .getWork course.hand⟩ := hundisturbed.hands
  have hhanded : Lasting Sound (course.handed env (.initial resources)) :=
    (Sound.after hfront hhands).1
  have hreserved := Env.handedOut_onTrack hfront.1 hundisturbed.hands hhappens.hands
    hundisturbed.new
  obtain ⟨hatStart, htrack⟩ :=
    Env.onTrack_along hhanded hreserved hhappens.before hundisturbed.before
  have hstarted := Env.started_onTrack hatStart.1 htrack rfl hhappens.starter hrunning hid
    hundisturbed.starts
  have hstarts : HandsOutFiledSteps env (course.atStart env (.initial resources))
      ⟨course.startMoment, .addStep course.start⟩ := trivial
  have hrunningSound : Lasting Sound (course.running env (.initial resources)) :=
    (Sound.after hatStart hstarts).1
  obtain ⟨hatReport, hlast⟩ :=
    Env.onTrack_along hrunningSound hstarted hhappens.between hundisturbed.between
  exact Env.reported_completes hatReport.1 hlast (congrArg some hcombined.symm)
    hhappens.reporter hstatus hbatch

end BatchCourse

/-- A worker that batches a family offers two steps of it. -/
def offersBatch (now : Time) (worker : WorkerId) : List Event :=
  [ requestAt now (.addStepBatcher worker "F" ⟨["p"], none⟩),
    requestAt now (offersMember worker "a" "1" false),
    requestAt now (offersMember worker "b" "2" false) ]

/-- The first worker gets the two steps as a batch and runs it as one step. -/
def combinedCourse (front : List Event) (now : Time) (before between : List Event) :
    BatchCourse where
  front := front ++ offersBatch now firstWorker
  handMoment := { now := now + 1 }
  hand := { worker := firstWorker, currentSteps := some [] }
  batchId := "d0726241020676b14aa6298ce6a18b21"
  members := ["a", "b"]
  before := before
  startMoment := { now := now + 3 }
  start :=
    { worker := firstWorker, stepId := "c", status := .running
      batchId := some "d0726241020676b14aa6298ce6a18b21" }
  between := between
  reportMoment := { now := now + 10 }
  report := { worker := firstWorker, stepId := "c", status := .done }

/-- The second worker has run the same batch before. -/
def repeatedCourse : BatchCourse :=
  combinedCourse
    (offersBatch 1 secondWorker ++
      [ requestAt 2 (.getWork { worker := secondWorker, currentSteps := some [] }),
        requestAt 3 (.addStep
          { worker := secondWorker, stepId := "c", status := .running
            batchId := some "d0726241020676b14aa6298ce6a18b21" }),
        requestAt 4 (.addStep { worker := secondWorker, stepId := "c", status := .done }) ])
    20 [] []

/-- The combined step still has its old owner, and nobody ends the run of the members. -/
theorem repeated_batch_stays_running :
    Timely repeatedCourse.events ∧ repeatedCourse.Happens batchEnv (.initial ∅) ∧
      ¬repeatedCourse.Completes batchEnv (.initial ∅) := by
  refine ⟨by decide +kernel, ⟨by decide +kernel, rfl, ⟨rfl, rfl⟩, rfl,
    ⟨rfl, rfl, .inl rfl⟩, trivial, trivial⟩, fun hcompletes => ?_⟩
  obtain ⟨ref, hget, hstatus, -⟩ := hcompletes.members "a" (by decide)
  have hmember : (repeatedCourse.reported batchEnv (.initial ∅)).getStep "a" = some 0 := by
    decide +kernel
  obtain rfl := Option.some.inj (hmember.symm.trans hget)
  revert hstatus
  decide +kernel

/-- The second worker schedules, gets and reports a step of its own in the meantime. -/
def sharedCourse : BatchCourse :=
  combinedCourse [] 1 [requestAt 3 (schedules secondWorker "d")]
    [ requestAt 5 (.getWork { worker := secondWorker, currentSteps := some [] }),
      requestAt 6 (.addStep { worker := secondWorker, stepId := "d", status := .done }),
      requestAt 7 .prune ]

theorem shared_course_completes : sharedCourse.Completes batchEnv (.initial ∅) :=
  BatchCourse.completes
    ⟨by decide +kernel, rfl, ⟨rfl, rfl⟩, rfl, ⟨rfl, rfl, .inl rfl⟩, by decide +kernel,
      by decide +kernel⟩
    ⟨by decide +kernel, by decide +kernel, by decide +kernel, by decide +kernel,
      by decide +kernel, by decide +kernel⟩

end Trun
