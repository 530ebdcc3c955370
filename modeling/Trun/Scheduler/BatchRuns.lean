import Trun.Scheduler.Needed
import Trun.Scheduler.Ownership

/-!
# Runs of batches

`get_work` reserves the members of a batch for its worker, which then starts the combined
step.  `OnTrack` says what the table shows of the batch in the meantime; requests of other
workers keep it unless they meddle with the batch.
-/

namespace Trun

open Program

/-- A batch that a worker has got: the ids of the members and, once the worker has started
it, of the combined step. -/
structure BatchRun where
  worker : WorkerId
  batchId : BatchId
  members : List StepId
  combined : Option StepId

namespace BatchRun

def Involves (batch : BatchRun) (id : StepId) : Prop :=
  id ∈ batch.members ∨ batch.combined = some id

instance (batch : BatchRun) (id : StepId) : Decidable (batch.Involves id) := by
  unfold Involves; infer_instance

/-- The combined step runs, possibly as a member too, and the other members wait for it. -/
def statusOf (batch : BatchRun) (id : StepId) : Status :=
  if batch.combined = some id then .running else .batchRunning

theorem statusOf_isRunning (batch : BatchRun) (id : StepId) :
    (batch.statusOf id).isRunning = true := by
  unfold statusOf
  split <;> rfl

end BatchRun

namespace Step

theorem handed_batchId (step : Step) (worker : WorkerId) (now : Time) :
    (step.handed worker now).batchId = step.batchId := by
  unfold handed withStatus
  split <;> rfl

/-- What a step looks like that takes part in the run. -/
structure TakesPart (step : Step) (batch : BatchRun) (id : StepId) : Prop where
  status : step.status = batch.statusOf id
  batchId : step.batchId = some batch.batchId
  owner : step.workerRunning = some batch.worker

theorem TakesPart.isRunning {step : Step} {batch : BatchRun} {id : StepId}
    (htakes : step.TakesPart batch id) : step.status.isRunning = true := by
  rw [htakes.status]
  exact batch.statusOf_isRunning id

theorem TakesPart.sameRun {a b : Step} {batch : BatchRun} {id : StepId}
    (htakes : a.TakesPart batch id) (hsame : a.SameRun b) : b.TakesPart batch id where
  status := hsame.status.trans htakes.status
  batchId := hsame.batchId.trans htakes.batchId
  owner := hsame.workerRunning.trans htakes.owner

def RunsUnder (step : Step) (batchId : BatchId) : Prop :=
  step.batchId = some batchId ∧ step.status.isRunning = true

instance (step : Step) (batchId : BatchId) : Decidable (step.RunsUnder batchId) := by
  unfold RunsUnder; infer_instance

theorem SameRun.runsUnder {a b : Step} (hsame : a.SameRun b) {batchId : BatchId}
    (hruns : b.RunsUnder batchId) : a.RunsUnder batchId := by
  unfold RunsUnder at hruns ⊢
  rwa [hsame.batchId, hsame.status] at hruns

theorem sameRun_of_core {a b : Step} (hcore : b.core = a.core) : a.SameRun b where
  status := (congrArg Step.status hcore :)
  workerRunning := (congrArg Step.workerRunning hcore :)
  batchId := (congrArg Step.batchId hcore :)

/-- A running step keeps its run through a status that it has or that it ignores. -/
theorem sameRun_settle {step : Step} (hrunning : step.status.isRunning = true)
    {newStatus : Status} (hnew : newStatus = step.status ∨ newStatus = .disabled)
    (config : Option Config) (now : Time) : step.SameRun (step.settle config now newStatus) := by
  rcases hnew with rfl | rfl
  · have hkeeps : step.releasesBatch step.status = false := by
      unfold releasesBatch
      rcases Status.isRunning_iff.mp hrunning with h | h <;> rw [h] <;> simp
    have hstatus : ∀ other : Status, other.isRunning = false → step.status ≠ other := by
      intro other hother h
      rw [h, hother] at hrunning
      cases hrunning
    rw [settle_plain _ _ _ _ (hstatus .disabled rfl) (hstatus .failed rfl)
      (hstatus .disabled rfl) hkeeps]
    unfold withStatus
    rw [if_pos rfl]
    exact .refl step
  · rw [settle_of_ignores]
    · exact .refl step
    · simp [ignores, hrunning]

/-- A step that does not run starts to run only through a status that says so. -/
theorem settle_stopped {step : Step} (hstopped : step.status.isRunning = false)
    {newStatus : Status} (hnew : newStatus.isRunning = false) (config : Option Config)
    (now : Time) : (step.settle config now newStatus).status.isRunning = false := by
  by_cases hdisabled : newStatus = .disabled
  · by_cases hignores : step.ignores newStatus = true
    · rw [settle_of_ignores _ _ _ _ hignores]
      exact hstopped
    · rw [settle_status _ _ _ _ (Bool.not_eq_true _ ▸ hignores) (by rw [hdisabled]; decide)]
      exact hnew
  · exact settle_not_running _ _ _ _ hnew hdisabled

end Step

namespace Scheduler

variable {s t u : Scheduler} {env : Env} {config : Config} {now : Time} {moment : Moment}
variable {ref : Ref} {batch : BatchRun}

/-- The steps of the batch wait or run for its worker, and no other step runs under its id. -/
structure OnTrack (s : Scheduler) (batch : BatchRun) : Prop where
  takes : ∀ id, batch.Involves id → ∃ ref, s.getStep id = some ref ∧
    (s.stepAt ref).TakesPart batch id
  only : ∀ id ref, s.getStep id = some ref → (s.stepAt ref).RunsUnder batch.batchId →
    batch.Involves id

theorem OnTrack.takesPart (htrack : s.OnTrack batch) {id : StepId} (hid : batch.Involves id)
    (hget : s.getStep id = some ref) : (s.stepAt ref).TakesPart batch id := by
  obtain ⟨other, hother, htakes⟩ := htrack.takes id hid
  obtain rfl := Option.some.inj (hget.symm.trans hother)
  exact htakes

/-- The steps of the batch keep their runs, and no other step starts to run under its id. -/
theorem OnTrack.imp (htrack : s.OnTrack batch)
    (hkept : ∀ id ref, batch.Involves id → s.getStep id = some ref →
      t.getStep id = some ref ∧ (s.stepAt ref).SameRun (t.stepAt ref))
    (hnew : ∀ id ref, t.getStep id = some ref → ¬batch.Involves id →
      (t.stepAt ref).RunsUnder batch.batchId →
        s.getStep id = some ref ∧ (s.stepAt ref).RunsUnder batch.batchId) :
    t.OnTrack batch where
  takes := by
    intro id hid
    obtain ⟨ref, hget, htakes⟩ := htrack.takes id hid
    obtain ⟨hget', hsame⟩ := hkept id ref hid hget
    exact ⟨ref, hget', htakes.sameRun hsame⟩
  only := by
    intro id ref hget hruns
    by_contra hid
    obtain ⟨hget', hruns'⟩ := hnew id ref hget hid hruns
    exact hid (htrack.only id ref hget' hruns')

/-- Requests that keep the rows and the runs. -/
theorem OnTrack.same (htrack : s.OnTrack batch) (hget : ∀ id, t.getStep id = s.getStep id)
    (hsame : ∀ ref, (s.stepAt ref).SameRun (t.stepAt ref)) : t.OnTrack batch :=
  htrack.imp (fun id ref _ hrow => ⟨(hget id).trans hrow, hsame ref⟩)
    fun id ref hrow _ hruns => ⟨(hget id).symm.trans hrow, (hsame ref).runsUnder hruns⟩

theorem OnTrack.rests (htrack : s.OnTrack batch) (hrests : Rests s t) : t.OnTrack batch :=
  htrack.same hrests.getStep fun ref =>
    ⟨hrests.status ref, hrests.workerRunning ref, hrests.batchId ref⟩

/-! ## Scheduling and reporting -/

/-- The request of another worker does not meddle with the batch: it spares the runs of the
batch, and starts nothing else under its id. -/
def LeavesBatch (s : Scheduler) (config : Config) (moment : Moment) (args : AddStepArgs)
    (batch : BatchRun) (ref : Ref) : Prop :=
  let enabled := (s.workerAt args.worker).enabled
  (s.stepAt ref).dropsClaim config moment args enabled = false →
    if batch.Involves args.stepId then
      (args.batchId = none ∨ args.batchId = some batch.batchId) ∧
        (s.stepAt ref).Shields args enabled
    else (args.batchId <|> (s.stepAt ref).batchId) = some batch.batchId →
      (s.stepAt ref).status.isRunning = false ∧ args.status.isRunning = false

instance (s : Scheduler) (config : Config) (moment : Moment) (args : AddStepArgs)
    (batch : BatchRun) (ref : Ref) : Decidable (s.LeavesBatch config moment args batch ref) := by
  unfold LeavesBatch Step.Shields; infer_instance

theorem OnTrack.received (htrack : s.OnTrack batch) (hstored : s.Stored) (config : Config)
    (moment : Moment) (args : AddStepArgs) : (s.receiveStep config moment args).OnTrack batch := by
  have hreceipt := hstored.receipt config moment args
  refine htrack.imp (fun id ref _ hget => ⟨hreceipt.keeps hget, ?_⟩) fun id ref hget _ hruns => ?_
  · rw [hreceipt.stepAt ref (hstored.rows_allocated id ref hget)]
    exact .refl _
  · rcases hreceipt.fresh hget with hold | ⟨-, -, -, hnew⟩
    · rw [hreceipt.stepAt ref (hstored.rows_allocated id ref hold)] at hruns
      exact ⟨hold, hruns⟩
    · rw [hnew] at hruns
      cases hruns.2

section Accepts

variable {args : AddStepArgs} {enabled : Bool}

/-- The batch that an accepted request leaves its step in. -/
theorem Accepts.target_batchId (haccepts : Accepts config moment args ref enabled s t) :
    (t.stepAt ref).batchId =
      ((s.openedStep moment args ref).report config moment args).batchId :=
  (congrArg Step.batchId haccepts.target :)

/-- A request of another worker that shields the run of a step of the batch. -/
theorem Accepts.target_sameRun (haccepts : Accepts config moment args ref enabled s t)
    {id : StepId} (htakes : (s.stepAt ref).TakesPart batch id)
    (hother : args.worker ≠ batch.worker)
    (hbatch : args.batchId = none ∨ args.batchId = some batch.batchId)
    (hclaim : (s.stepAt ref).dropsClaim config moment args enabled = false)
    (hshields : (s.stepAt ref).Shields args enabled) :
    (s.stepAt ref).SameRun (t.stepAt ref) := by
  obtain ⟨-, -, hstatus, -, -, -, hbatchId⟩ := openedStep_plan_fields s moment args ref
  have hopened : (s.stepAt ref).SameRun (s.openedStep moment args ref) := by
    refine ⟨hstatus, ?_, ?_⟩
    · rw [openedStep_owner htakes.owner, htakes.owner]
    · rw [hbatchId, htakes.batchId]
      rcases hbatch with h | h <;> rw [h] <;> rfl
  have hrunning : (s.openedStep moment args ref).status.isRunning = true := by
    rw [hstatus]
    exact htakes.isRunning
  refine hopened.trans ?_
  have hreport : (s.openedStep moment args ref).SameRun
      ((s.openedStep moment args ref).report config moment args) := by
    unfold Step.report
    split
    · rename_i hreports
      refine Step.sameRun_settle hrunning ?_ _ _
      rw [hstatus]
      rcases hshields with hnone | hsame | hdisabled | ⟨hwaits, hdisabled⟩
      · -- another worker reports on a running step through new dependencies only
        simp [Step.acceptsReport, hrunning, hnone, openedStep_owner htakes.owner] at hreports
        exact absurd hreports.2.symm hother
      · exact .inl hsame
      · exact .inr hdisabled
      · simp [Step.dropsClaim, hwaits, hdisabled] at hclaim
    · exact .refl _
  exact hreport.trans ⟨haccepts.target_status, (congrArg Step.workerRunning haccepts.target :),
    haccepts.target_batchId⟩

/-- A request for a step outside the batch that starts nothing under its id. -/
theorem Accepts.target_runsUnder (haccepts : Accepts config moment args ref enabled s t)
    {batchId : BatchId} (hruns : (t.stepAt ref).RunsUnder batchId)
    (hquiet : (args.batchId <|> (s.stepAt ref).batchId) = some batchId →
      (s.stepAt ref).status.isRunning = false ∧ args.status.isRunning = false) : False := by
  obtain ⟨-, -, hstatus, -, -, -, hbatchId⟩ := openedStep_plan_fields s moment args ref
  obtain ⟨hbatch, hrunning⟩ := hruns
  rw [haccepts.target_batchId] at hbatch
  rw [haccepts.target_status] at hrunning
  have hopened : (s.openedStep moment args ref).batchId = some batchId := by
    unfold Step.report at hbatch
    split at hbatch
    · rw [Step.settle_batchId] at hbatch
      split at hbatch
      · cases hbatch
      · exact hbatch
    · exact hbatch
  obtain ⟨hidle, hreports⟩ := hquiet (hbatchId ▸ hopened)
  have hnew : args.newStatus.isRunning = false := by
    unfold AddStepArgs.newStatus
    split
    · rfl
    · exact hreports
  have hstopped : (s.openedStep moment args ref).status.isRunning = false := by
    rw [hstatus]
    exact hidle
  have hafter : ((s.openedStep moment args ref).report config moment args).status.isRunning =
      false := by
    unfold Step.report
    split
    · exact Step.settle_stopped hstopped hnew _ _
    · exact hstopped
  rw [hafter] at hrunning
  cases hrunning

/-- What the report of another worker passes on does not reach the batch. -/
theorem OnTrack.not_passesOn (htrack : s.OnTrack batch)
    (hget : s.getStep args.stepId = some ref) (hother : args.worker ≠ batch.worker)
    (hinvolved : batch.Involves args.stepId → (s.stepAt ref).Shields args enabled)
    (houtside : ¬batch.Involves args.stepId →
      (args.batchId <|> (s.stepAt ref).batchId) = some batch.batchId →
        (s.stepAt ref).status.isRunning = false)
    {other : Ref} (hmember : (s.stepAt other).batchId = some batch.batchId) :
    ¬s.PassesOn moment args ref other := by
  rintro ⟨hpasses, -, -, hsame⟩
  obtain ⟨-, -, hstatus, -, -, -, hbatchId⟩ := openedStep_plan_fields s moment args ref
  simp only [Step.passesOn, Bool.and_eq_true, Bool.not_eq_true', Step.releasesBatch,
    beq_iff_eq, bne_iff_ne] at hpasses
  obtain ⟨⟨hreports, hignores⟩, ⟨hruns, -⟩, hnew⟩ := hpasses
  rw [hstatus] at hruns
  by_cases hid : batch.Involves args.stepId
  · have htakes := htrack.takesPart hid hget
    rw [openedStep_acceptsReport moment args htakes.owner] at hreports
    rcases hinvolved hid with hnone | hkept | hdisabled | ⟨hwaits, -⟩
    · simp [Step.acceptsReport, hruns, hnone, Status.isRunning] at hreports
      exact hother (Option.some.inj (hreports.2.symm.trans htakes.owner))
    · exact hnew (hkept.trans hruns)
    · rw [openedStep_ignores] at hignores
      simp [Step.ignores, hdisabled, hruns, Status.isRunning] at hignores
    · rw [hwaits] at hruns
      cases hruns
  · have hidle := houtside hid (by rw [← hbatchId, ← hsame, hmember])
    rw [hruns] at hidle
    cases hidle

theorem OnTrack.accepts (htrack : s.OnTrack batch) (hstored : s.Stored)
    (hget : s.getStep args.stepId = some ref) (hother : args.worker ≠ batch.worker)
    (hclaim : (s.stepAt ref).dropsClaim config moment args enabled = false)
    (hinvolved : batch.Involves args.stepId →
      (args.batchId = none ∨ args.batchId = some batch.batchId) ∧
        (s.stepAt ref).Shields args enabled)
    (houtside : ¬batch.Involves args.stepId →
      (args.batchId <|> (s.stepAt ref).batchId) = some batch.batchId →
        (s.stepAt ref).status.isRunning = false ∧ args.status.isRunning = false)
    (haccepts : Accepts config moment args ref enabled s t) : t.OnTrack batch := by
  have hid := hstored.index.step_id hget
  have hpasses : ∀ {other : Ref}, (s.stepAt other).batchId = some batch.batchId →
      ¬s.PassesOn moment args ref other := fun hmember =>
    htrack.not_passesOn hget hother (fun h => (hinvolved h).2)
      (fun h h' => (houtside h h').1) hmember
  have hothers : ∀ other < s.nextRef, other ≠ ref → ¬s.PassesOn moment args ref other →
      (s.stepAt other).SameRun (t.stepAt other) := by
    intro other hlt hne hnot
    have hcore := haccepts.other other hlt hne
    rw [if_neg hnot] at hcore
    exact Step.sameRun_of_core hcore
  refine htrack.imp (fun id other hinvolves hrow => ⟨haccepts.keeps hrow, ?_⟩)
    fun id other hrow hinvolves hruns => ?_
  · have htakes := htrack.takesPart hinvolves hrow
    by_cases href : other = ref
    · subst href
      obtain rfl : args.stepId = id := hid.symm.trans (hstored.index.step_id hrow)
      obtain ⟨hbatch, hshields⟩ := hinvolved hinvolves
      exact haccepts.target_sameRun htakes hother hbatch hclaim hshields
    · exact hothers other (hstored.rows_allocated id other hrow) href (hpasses htakes.batchId)
  · rcases haccepts.fresh hrow with hold | ⟨-, -, -, -, hcore, -⟩
    · refine ⟨hold, ?_⟩
      have hlt := hstored.rows_allocated id other hold
      by_cases href : other = ref
      · subst href
        obtain rfl : args.stepId = id := hid.symm.trans (hstored.index.step_id hold)
        exact (haccepts.target_runsUnder hruns (houtside hinvolves)).elim
      · refine (hothers other hlt href fun hpass => ?_).runsUnder hruns
        have hgone := haccepts.other other hlt href
        rw [if_pos hpass] at hgone
        have hnone : (t.stepAt other).batchId = none := (congrArg Step.batchId hgone :)
        rw [hruns.1] at hnone
        cases hnone
    · have hstatus : (t.stepAt other).status = .unknown := (congrArg Step.status hcore :)
      rw [Step.RunsUnder, hstatus] at hruns
      cases hruns.2

end Accepts

/-- The whole of `add_step`, from another worker. -/
theorem OnTrack.adds {args : AddStepArgs} {outcome : Except Raised Unit}
    (htrack : s.OnTrack batch) (hstored : s.Stored) (hother : args.worker ≠ batch.worker)
    (hleaves : ∀ ref, (s.receiveStep config moment args).getStep args.stepId = some ref →
      (s.receiveStep config moment args).LeavesBatch config moment args batch ref)
    (hadds : AddsStep config moment args (s.receiveStep config moment args) outcome t) :
    t.OnTrack batch := by
  have hreceived := htrack.received hstored config moment args
  have hrstored := receiveStep_stored hstored config moment args
  generalize s.receiveStep config moment args = received at *
  cases hadds with
  | dropped => exact hreceived
  | @accepted ref t hget hclaim hstarts haccepts =>
      have hleft := hleaves ref hget hclaim
      exact hreceived.accepts hrstored hget hother hclaim
        (fun hid => by rwa [if_pos hid] at hleft) (fun hid => by rwa [if_neg hid] at hleft)
        haccepts
  | @failed ref error hget hclaim hraises herror =>
      have hleft := hleaves ref hget hclaim
      have hid := hrstored.index.step_id hget
      have hunowned : (received.stepAt ref).workerRunning = none := by
        rw [← workerRunning_joinStep received args ref ref]
        exact hraises.1.2
      have houtside : ¬batch.Involves args.stepId := fun hid => by
        rw [(hreceived.takesPart hid hget).owner] at hunowned
        cases hunowned
      rw [if_neg houtside] at hleft
      have hothers : ∀ other, other ≠ ref → (received.stepAt other).SameRun
          (((received.joinStep args ref).updateStep ref fun step =>
            { step with workerRunning := some args.worker }).stepAt other) := by
        intro other hne
        obtain ⟨-, hstatus, -, -, hbatch, howner⟩ := received.stepAt_failedClaim args ref other
        rw [if_neg hne] at hbatch howner
        exact ⟨hstatus, howner, hbatch⟩
      refine hreceived.imp (fun id other hinvolves hrow => ⟨hrow, hothers other ?_⟩)
        fun id other hrow hinvolves hruns => ⟨hrow, ?_⟩
      · rintro rfl
        rw [(hreceived.takesPart hinvolves hrow).owner] at hunowned
        cases hunowned
      · by_cases href : other = ref
        · subst href
          obtain ⟨-, hstatus, -, -, hbatch, -⟩ := received.stepAt_failedClaim args other other
          rw [if_pos rfl] at hbatch
          obtain ⟨hjoined, hrunning⟩ := hruns
          rw [hbatch] at hjoined
          rw [hstatus, (hleft hjoined).1] at hrunning
          cases hrunning
        · exact (hothers other href).runsUnder hruns

/-! ## Pruning -/

/-- The stamp of the step is due, or `prune` sets one that is due at once. -/
def TakesAway (s : Scheduler) (config : Config) (now : Time) (ref : Ref) : Prop :=
  (s.stepAt ref).mayPrune now = true ∨
    ((s.stepAt ref).stakeholders = ∅ ∧ (s.stepAt ref).remove = none ∧
      (s.stepAt ref).status ≠ .running ∧ config.removesAtOnce now = true)

instance (s : Scheduler) (config : Config) (now : Time) (ref : Ref) :
    Decidable (s.TakesAway config now ref) := by
  unfold TakesAway; infer_instance

/-- Once the silent workers are gone, `prune` neither ends the runs of the batch nor takes its
steps away. -/
def KeepsBatch (s : Scheduler) (config : Config) (now : Time) (batch : BatchRun) : Prop :=
  ∀ ref ∈ s.activeSteps, batch.Involves (s.stepAt ref).id →
    ¬s.Stops ref ∧ ¬s.TakesAway config now ref

instance (s : Scheduler) (config : Config) (now : Time) (batch : BatchRun) :
    Decidable (s.KeepsBatch config now batch) := by
  unfold KeepsBatch; infer_instance

theorem OnTrack.inactivates {workers : List WorkerId} (htrack : s.OnTrack batch)
    (hinactivates : Inactivates workers s t) : t.OnTrack batch := by
  refine htrack.same hinactivates.getStep fun ref => ?_
  obtain ⟨step, hstep⟩ := hinactivates.plan ref
  rw [hstep]
  exact ⟨rfl, rfl, rfl⟩

/-- A run that goes on stays in the table unless its step is taken away. -/
theorem prune_keeps_run (hsound : s.Sound) (hrun : (prune config now).exec s = (.ok (), t))
    (hfiled : s.Filed ref)
    (hrunning : ((s.pruneWorkers config now).stepAt ref).status.isRunning = true)
    (hgoesOn : ¬(s.pruneWorkers config now).Stops ref)
    (hstays : ¬(s.pruneWorkers config now).TakesAway config now ref) :
    t.Filed ref ∧ ((s.pruneWorkers config now).stepAt ref).SameRun (t.stepAt ref) := by
  obtain ⟨-, -, last, hvisits, hobjects⟩ := prune_visits hsound.stored hsound.retriable hrun
  have hgoes : (t.stepAt ref).status.isRunning = true := by
    rw [← Bool.not_eq_false, prune_stops_iff hsound hrun hrunning hfiled]
    exact hgoesOn
  have hremove := hvisits.remove_of_running (hobjects ref ▸ hgoes)
  rw [← hobjects] at hremove
  refine ⟨?_, hobjects ref ▸ (hvisits.swept ref).running (hobjects ref ▸ hgoes)⟩
  by_contra hgone
  obtain ⟨visited, hsweeps, hdue, hrest⟩ :=
    prune_removes hsound.stored hsound.retriable hrun hfiled hgone
  have hmiddle := hrest.running hgoes
  refine hstays ?_
  rcases (hsweeps.object ref).remove with hsame | hstamp | ⟨hstamp, hnone, hempty, hstatus⟩
  · exact .inl (Step.mayPrune_congr hsame now ▸ hdue)
  · -- only the stamp of an earlier failure outlasts the loop
    have hlast : (t.stepAt ref).remove = some ⟨now, true⟩ := by
      rcases hrest.remove with hsame | hfailed | ⟨-, hnone, -⟩
      · exact hsame.trans hstamp
      · exact hfailed
      · rw [hstamp] at hnone
        cases hnone
    rcases hremove with hsame | ⟨hfresh, -⟩
    · refine .inl (Step.mayPrune_congr ?_ now ▸ hdue)
      rw [hstamp, ← hlast, hsame]
    · rw [hlast] at hfresh
      exact absurd (congrArg Removal.failedBatch (Option.some.inj hfresh)) (by simp)
  · refine .inr ⟨hempty, hnone, fun hown => hstatus ?_, removesAtOnce_of_due hstamp hdue⟩
    rw [← hown]
    exact ((hsweeps.object ref).running (hmiddle.status ▸ hgoes)).status

theorem OnTrack.pruned (htrack : s.OnTrack batch) (hsound : s.Sound)
    (hrun : (prune config now).exec s = (.ok (), t)) (hprunes : Prunes config now s t)
    (hkeeps : (s.pruneWorkers config now).KeepsBatch config now batch) : t.OnTrack batch := by
  have hkept := htrack.inactivates hprunes.inactivates
  have hindex := hprunes.inactivates.stored.index
  refine hkept.imp (fun id ref hinvolves hget => ?_) fun id ref hget hinvolves hruns => ?_
  · have hid := hindex.step_id hget
    have hfiled := hindex.filed hget
    obtain ⟨hgoesOn, hstays⟩ := hkeeps ref (hindex.mem_activeSteps.mpr hfiled) (hid ▸ hinvolves)
    obtain ⟨hleft, hsame⟩ := prune_keeps_run hsound hrun
      ((hprunes.inactivates.filed ref).mp hfiled) (hkept.takesPart hinvolves hget).isRunning
      hgoesOn hstays
    refine ⟨?_, hsame⟩
    unfold Filed at hleft
    rwa [(hprunes.object ref).id, hid] at hleft
  · refine ⟨?_, ((hprunes.object ref).running hruns.2).runsUnder hruns⟩
    rw [hprunes.inactivates.getStep]
    exact hprunes.getStep hget

/-! ## Handing out -/

/-- The pick of another worker: its step, alone, is not under the id of the batch, and its own
batch has another id. -/
def PicksApart (s : Scheduler) (env : Env) (selection : Selection) (batch : BatchRun) : Prop :=
  if 1 < selection.batchedSteps.length then
    env.batchId (selection.batchedSteps.map fun ref => (s.stepAt ref).id) ≠ batch.batchId
  else ∀ ref ∈ selection.bestStep, (s.stepAt ref).batchId ≠ some batch.batchId

instance (s : Scheduler) (env : Env) (selection : Selection) (batch : BatchRun) :
    Decidable (s.PicksApart env selection batch) := by
  unfold PicksApart; infer_instance

/-- Nothing of the batch is put back for another worker. -/
theorem OnTrack.prepares {args : GetWorkArgs} (htrack : s.OnTrack batch) (hindex : s.Indexed)
    (hprepares : Prepares now args s t) (hother : args.worker ≠ batch.worker) :
    t.OnTrack batch := by
  refine htrack.imp (fun id ref hinvolves hget => ⟨(hprepares.getStep id).trans hget, ?_⟩)
    fun id ref hget _ hruns => ⟨(hprepares.getStep id).symm.trans hget, ?_⟩
  · rw [hprepares.object, if_neg]
    · exact .refl _
    · rintro ⟨-, horphan⟩
      have howner := (hindex.mem_orphanedSteps.mp horphan).2.2.1
      rw [(htrack.takesPart hinvolves hget).owner] at howner
      exact hother (Option.some.inj howner).symm
  · rwa [hprepares.running ref hruns.2] at hruns

theorem OnTrack.handsOut {worker : WorkerId} {selection : Selection} {work : Work}
    (htrack : s.OnTrack batch) (hhands : HandsOut env now worker selection s work t)
    (hfree : ∀ ref ∈ selection.picks, ∀ id, batch.Involves id → s.getStep id ≠ some ref)
    (hapart : s.PicksApart env selection batch) : t.OnTrack batch := by
  unfold PicksApart at hapart
  cases hhands with
  | nothing => exact htrack
  | @single best t hbest hsize hands =>
      rw [if_neg hsize] at hapart
      have hpicks : selection.picks = [best] := by
        rw [Selection.picks, if_neg hsize, hbest]
        rfl
      rw [hpicks] at hfree
      refine htrack.imp (fun id ref hinvolves hget => ⟨(hands.same.getStep id).trans hget, ?_⟩)
        fun id ref hget _ hruns => ⟨(hands.same.getStep id).symm.trans hget, ?_⟩
      · rw [hands.object, if_neg fun hmem => hfree ref hmem id hinvolves hget]
        exact .refl _
      · rw [hands.object] at hruns
        split at hruns
        · rename_i hmem
          obtain rfl := List.mem_singleton.mp hmem
          exact absurd ((Step.handed_batchId ..).symm.trans hruns.1) (hapart ref hbest)
        · exact hruns
  | @batch stepIds t family module params hsize hids hands =>
      rw [if_pos hsize, ← hids] at hapart
      rw [Selection.picks, if_pos hsize] at hfree
      refine htrack.imp (fun id ref hinvolves hget => ⟨(hands.same.getStep id).trans hget, ?_⟩)
        fun id ref hget _ hruns => ⟨(hands.same.getStep id).symm.trans hget, ?_⟩
      · rw [hands.object, if_neg fun hmem => hfree ref hmem id hinvolves hget]
        exact .refl _
      · rw [hands.object] at hruns
        split at hruns
        · exact absurd (Option.some.inj hruns.1) hapart
        · exact hruns

end Scheduler

open Scheduler

/-! ## Requests of other workers -/

/-- The worker that sends the request, where it is a request for work or about a step. -/
def Request.sender : Request → Option WorkerId
  | .addStep args => some args.worker
  | .getWork args => some args.worker
  | _ => none

namespace Env

variable (env : Env)

/-- The request of another worker leaves the batch alone. -/
def SparesBatch (batch : BatchRun) (s : Scheduler) (event : Event) : Prop :=
  (env.prunes event = true →
    (s.pruneWorkers env.config event.moment.now).KeepsBatch env.config event.moment.now batch) ∧
  match event.request with
  | .addStep args =>
      let received := s.receiveStep env.config event.moment args
      ∀ ref ∈ received.getStep args.stepId,
        received.LeavesBatch env.config event.moment args batch ref
  | .getWork args =>
      env.LooksAtFiledSteps s event.moment args ∧
        (((env.received s event.moment args).workerAt args.worker).enabled = true →
          (env.ranked s event.moment args).PicksApart env
            ((env.ranked s event.moment args).selectWork args env.config event.moment.now
              ((env.received s event.moment args).lostStep args)) batch)
  | _ => True

instance (batch : BatchRun) (s : Scheduler) (event : Event) :
    Decidable (env.SparesBatch batch s event) := by
  obtain ⟨moment, request⟩ := event
  induction request using Request.casesOn <;> dsimp only [SparesBatch] <;> infer_instance

variable {env} {s : Scheduler} {batch : BatchRun}

theorem SparesBatch.handsOut {event : Event} (hspares : env.SparesBatch batch s event) :
    HandsOutFiledSteps env s event := by
  obtain ⟨moment, request⟩ := event
  cases request with
  | getWork args => exact hspares.2.1
  | _ => exact trivial

theorem pruned_onTrack {event : Event} (hsound : s.Sound) (htrack : s.OnTrack batch)
    (hspares : env.SparesBatch batch s event) : (env.pruned s event).OnTrack batch := by
  unfold pruned
  split
  · rename_i hprunes
    obtain ⟨t, hrun, hpruned⟩ :=
      prune_spec hsound.stored hsound.retriable env.config event.moment.now
    have hafter : env.after s ⟨event.moment, .prune⟩ = t :=
      congrArg Prod.snd (exec_reply (fun _ => Response.nothing) hrun)
    rw [hafter]
    exact htrack.pruned hsound hrun hpruned (hspares.1 hprunes)
  · exact htrack

theorem getWork_onTrack {moment : Moment} {args : GetWorkArgs} (hsound : s.Sound)
    (htrack : s.OnTrack batch) (hother : args.worker ≠ batch.worker)
    (hspares : env.SparesBatch batch s ⟨moment, .getWork args⟩) :
    (env.after s ⟨moment, .getWork args⟩).OnTrack batch := by
  have hpruned := pruned_onTrack hsound htrack hspares
  obtain ⟨-, hlooks, hapart⟩ := hspares
  have hreceived : (env.received s moment args).OnTrack batch :=
    hpruned.rests (env.received_rests hsound moment args).rests
  by_cases henabled : ((env.received s moment args).workerAt args.worker).enabled = true
  · obtain ⟨-, hprepares, -⟩ :=
      ranked_noted env moment args hsound.stored hsound.retriable
    obtain ⟨-, -, hrstored, -⟩ :=
      receiveRequest_spec env moment args hsound.stored hsound.retriable
    have hranked := hreceived.prepares hrstored.index hprepares hother
    obtain ⟨-, hgreets, -⟩ :=
      countPending_meets moment args.worker (env.ranked s moment args)
    rcases hsound.after_getWork_counts env moment hlooks henabled with
      ⟨error, hcount, -⟩ | ⟨pending, counted, work, hcount, -, hhands, -⟩
    · simp only [Program.final, hcount] at hgreets
      exact hranked.rests (Greets.rests hgreets)
    · simp only [Program.final, hcount] at hgreets
      replace hgreets : Greets (env.ranked s moment args) counted := hgreets
      refine (hranked.rests hgreets.rests).handsOut hhands (fun ref hpick id hinvolves hget => ?_)
        ?_
      · -- a step that is picked is pending or a run of the other worker
        rw [hgreets.getStep] at hget
        have htakes := hranked.takesPart hinvolves hget
        obtain ⟨-, hpending | ⟨-, -, howner⟩⟩ := picks_filed env moment args ref hsound.stored
          hsound.retriable henabled hlooks hpick
        · have hrunning := htakes.isRunning
          rw [hpending] at hrunning
          cases hrunning
        · exact hother (Option.some.inj (howner.symm.trans htakes.owner))
      · have hchosen := hapart henabled
        unfold PicksApart at hchosen ⊢
        simpa only [hgreets.stepAt] using hchosen
  · rw [(hsound.after_getWork_disabled env moment henabled).1]
    exact hreceived

/-- One request of another worker. -/
theorem onTrack_after {event : Event} (hsound : s.Sound) (htrack : s.OnTrack batch)
    (hworkers : event.request.isWorkers = true) (hother : event.request.sender ≠ some batch.worker)
    (hspares : env.SparesBatch batch s event) : (env.after s event).OnTrack batch := by
  obtain ⟨moment, request⟩ := event
  by_cases hquiet : request.isQuiet = true
  · exact htrack.rests (rests_after env moment hquiet)
  cases request with
  | addStep args =>
      obtain ⟨outcome, hadds, -⟩ := hsound.after_addStep env moment args
      exact htrack.adds hsound.stored (fun h => hother (congrArg some h))
        (fun ref hget => hspares.2 ref hget) hadds
  | getWork args => exact getWork_onTrack hsound htrack (fun h => hother (congrArg some h)) hspares
  | prune => exact pruned_onTrack hsound htrack hspares
  | _ => first | exact absurd rfl hquiet | cases hworkers

end Env

end Trun
