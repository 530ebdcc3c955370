import Trun.Scheduler.Attending

/-!
# Steps that are marked for deletion

`prune` removes a step by a time stamp that an earlier `prune` has set.  No marked step has
a stakeholder or a worker that runs it, as long as no request makes one needed again and
`prune` marks none that an active worker runs.
-/

namespace Trun

open Program

/-- `update_status` has marked the step for deletion. -/
def Step.condemned (step : Step) : Bool :=
  step.remove.any fun removal => !removal.failedBatch

/-- The step was removed, or will be, as the combined step of a batch that failed. -/
def Step.ofFailedBatch (step : Step) : Bool := step.remove.any Removal.failedBatch

theorem Step.condemned_congr {a b : Step} (hremove : b.remove = a.remove) :
    b.condemned = a.condemned := by
  unfold condemned
  rw [hremove]

theorem Step.condemned_of_settle {step : Step} {config : Option Config} {now : Time}
    {newStatus : Status}
    (hcondemned : (step.settle config now newStatus).condemned = true) :
    step.condemned = true := by
  rcases step.settle_remove config now newStatus with hsame | ⟨-, hfailed⟩
  · rwa [condemned_congr hsame] at hcondemned
  · unfold condemned at hcondemned
    rw [hfailed] at hcondemned
    cases hcondemned

/-- A step that is marked at once is removed by the same `prune`. -/
def Config.removesAtOnce (config : Config) (now : Time) : Bool :=
  now + config.removeDelay != 0 && decide (config.removeDelay ≤ 0)

theorem removesAtOnce_of_due {step : Step} {config : Config} {now : Time}
    (hstamp : step.remove = some ⟨now + config.removeDelay, false⟩)
    (hdue : step.mayPrune now = true) : config.removesAtOnce now = true := by
  rw [Step.mayPrune, hstamp] at hdue
  simp only [Bool.and_eq_true, bne_iff_ne, decide_eq_true_eq] at hdue
  simp only [Config.removesAtOnce, Bool.and_eq_true, bne_iff_ne, decide_eq_true_eq]
  refine ⟨hdue.1, Int.le_of_add_le_add_left (a := now) ?_⟩
  rw [Int.add_zero]
  exact hdue.2

theorem Step.mayPrune_congr {a b : Step} (hremove : b.remove = a.remove) (now : Time) :
    b.mayPrune now = a.mayPrune now := by
  unfold mayPrune
  rw [hremove]

namespace Scheduler

variable {s t u : Scheduler} {env : Env} {config : Config} {now : Time} {moment : Moment}
variable {ref : Ref}

/-- An active worker has a stake in the step or runs it. -/
def Needed (s : Scheduler) (ref : Ref) : Prop :=
  (∃ worker ∈ (s.stepAt ref).stakeholders, s.Knows worker) ∨
    ((s.stepAt ref).status.isRunning = true ∧
      ∃ owner ∈ (s.stepAt ref).workerRunning, s.Knows owner)

instance (s : Scheduler) (ref : Ref) : Decidable (s.Needed ref) := by
  unfold Needed; infer_instance

/-- Marked steps have no stakeholder and nobody runs them. -/
def Abandoned (s : Scheduler) : Prop :=
  ∀ ref, s.Filed ref → (s.stepAt ref).condemned = true →
    (s.stepAt ref).stakeholders = ∅ ∧
      ((s.stepAt ref).status.isRunning = true → (s.stepAt ref).workerRunning = none)

theorem Abandoned.not_needed (habandoned : s.Abandoned) (hfiled : s.Filed ref)
    (hcondemned : (s.stepAt ref).condemned = true) : ¬s.Needed ref := by
  obtain ⟨hempty, howner⟩ := habandoned ref hfiled hcondemned
  rintro (⟨worker, hworker, -⟩ | ⟨hrunning, owner, hmem, -⟩)
  · rw [hempty] at hworker
    exact Finset.notMem_empty worker hworker
  · rw [howner hrunning] at hmem
    cases hmem

/-- Nothing new is marked, and no marked step gets a stakeholder or starts to run. -/
theorem Abandoned.imp (habandoned : s.Abandoned)
    (hkept : ∀ ref, t.Filed ref → (t.stepAt ref).condemned = true →
      s.Filed ref ∧ (s.stepAt ref).condemned = true ∧
        (t.stepAt ref).stakeholders = (s.stepAt ref).stakeholders ∧
        ((t.stepAt ref).status.isRunning = true → (s.stepAt ref).status.isRunning = true ∧
          (t.stepAt ref).workerRunning = (s.stepAt ref).workerRunning)) : t.Abandoned := by
  intro ref hfiled hcondemned
  obtain ⟨hbefore, hmarked, hstakeholders, hrun⟩ := hkept ref hfiled hcondemned
  obtain ⟨hempty, howner⟩ := habandoned ref hbefore hmarked
  refine ⟨hstakeholders.trans hempty, fun hrunning => ?_⟩
  obtain ⟨hrunning', hsame⟩ := hrun hrunning
  exact hsame.trans (howner hrunning')

theorem Abandoned.continues (habandoned : s.Abandoned) (hcontinues : Continues s t)
    (hmarks : ∀ ref, (t.stepAt ref).condemned = true → (s.stepAt ref).condemned = true) :
    t.Abandoned :=
  habandoned.imp fun ref hfiled hcondemned => ⟨hcontinues.filed ref hfiled,
    hmarks ref hcondemned, hcontinues.stakeholders ref hfiled, hcontinues.running ref hfiled⟩

/-- Requests that leave the steps alone. -/
theorem Abandoned.rests (habandoned : s.Abandoned) (hrests : Rests s t) : t.Abandoned := by
  refine habandoned.imp fun ref hfiled hcondemned => ⟨(hrests.filed ref).mp hfiled, ?_,
    hrests.stakeholders ref, fun hrunning => ?_⟩
  · rwa [Step.condemned_congr (hrests.remove ref)] at hcondemned
  · rw [hrests.status] at hrunning
    exact ⟨hrunning, hrests.workerRunning ref⟩

/-! ## Requests of users -/

theorem Settles.condemned {newStatus : Status} (hsettles : Settles config now ref newStatus s t)
    (other : Ref) (hcondemned : (t.stepAt other).condemned = true) :
    (s.stepAt other).condemned = true := by
  rw [hsettles.object] at hcondemned
  unfold settled at hcondemned
  split_ifs at hcondemned with hother
  · rw [hother]
    exact Step.condemned_of_settle hcondemned
  · exact Step.condemned_of_settle hcondemned
  · exact hcondemned

theorem ReEnables.condemned (hreEnables : ReEnables config now ref s t) (other : Ref)
    (hcondemned : (t.stepAt other).condemned = true) : (s.stepAt other).condemned = true := by
  rw [hreEnables.object] at hcondemned
  split at hcondemned
  · rename_i hother
    have hsettled : ((s.stepAt ref).reEnable.settle (some config) now .failed).condemned =
        true := hcondemned
    rw [hother]
    exact (Step.condemned_of_settle hsettled :)
  · exact hcondemned

theorem Abandoned.handles {event : Event} {outcome : Except Raised Response}
    (habandoned : s.Abandoned) (hindex : s.Indexed)
    (hhandles : Handles env s event outcome t) (husers : event.request.isWorkers = false)
    (hload : event.request ≠ .load) : t.Abandoned := by
  refine habandoned.continues (hhandles.continues hindex husers hload) fun other => ?_
  cases hhandles with
  | serves hserves =>
      cases hserves with
      | adds | works | prunes => cases husers
      | rests hquiet =>
          obtain ⟨moment, request⟩ := event
          cases request <;> cases husers <;> cases hquiet
  | marks _ hsettles => exact hsettles.condemned other
  | forgives _ _ hsettles => exact hsettles.condemned other
  | reEnables _ _ hreEnables => exact hreEnables.condemned other
  | idle | dumps => exact fun h => h
  | @disables moment worker =>
      intro hcondemned
      rw [stepAt_disableWorker hindex] at hcondemned
      split at hcondemned <;> exact hcondemned
  | loads => exact absurd rfl hload

/-! ## Scheduling and reporting -/

/-- A claim or a dependency finds no marked step. -/
def FindsUnmarked (s : Scheduler) (config : Config) (moment : Moment) (args : AddStepArgs)
    (ref : Ref) : Prop :=
  let enabled := (s.workerAt args.worker).enabled
  if (s.stepAt ref).dropsClaim config moment args enabled then True
  else if s.claimRaises args ref then
    (s.stepAt ref).condemned = true → (s.stepAt ref).status.isRunning = false
  else args.holds enabled = true → ∀ dep ∈ ((s.stepAt ref).declare moment args).deps.elems,
    ∀ other ∈ s.getStep dep, other ≠ ref → (s.stepAt other).condemned = false

instance (s : Scheduler) (config : Config) (moment : Moment) (args : AddStepArgs) (ref : Ref) :
    Decidable (s.FindsUnmarked config moment args ref) := by
  unfold FindsUnmarked; infer_instance

theorem Abandoned.received (habandoned : s.Abandoned) (hstored : s.Stored) (config : Config)
    (moment : Moment) (args : AddStepArgs) : (s.receiveStep config moment args).Abandoned := by
  have hreceipt := hstored.receipt config moment args
  refine habandoned.imp fun ref hfiled hcondemned => ?_
  rcases hreceipt.filed hstored hfiled with hold | ⟨-, hnew⟩
  · rw [hreceipt.stepAt ref (hstored.filed_lt hold)] at hcondemned ⊢
    exact ⟨hold, hcondemned, rfl, fun hrunning => ⟨hrunning, rfl⟩⟩
  · rw [hnew] at hcondemned
    cases hcondemned

section Accepts

variable {args : AddStepArgs} {enabled : Bool}

/-- An accepted request unmarks its step. -/
theorem Accepts.target_condemned (haccepts : Accepts config moment args ref enabled s t) :
    (t.stepAt ref).condemned = false := by
  have hremove : (t.stepAt ref).remove =
      ((s.openedStep moment args ref).report config moment args).remove :=
    (congrArg Step.remove haccepts.target :)
  have hopened : (s.openedStep moment args ref).condemned = false := rfl
  rw [Step.condemned_congr hremove]
  unfold Step.report
  split
  · rw [Bool.eq_false_iff]
    intro hcondemned
    rw [Step.condemned_of_settle hcondemned] at hopened
    cases hopened
  · exact hopened

theorem Accepts.other_condemned (haccepts : Accepts config moment args ref enabled s t)
    {other : Ref} (hlt : other < s.nextRef) (hne : other ≠ ref)
    (hcondemned : (t.stepAt other).condemned = true) : (s.stepAt other).condemned = true := by
  have hcore := haccepts.other other hlt hne
  split at hcore
  · have hremove : (t.stepAt other).remove =
        ((s.stepAt other).settle (some config) moment.now args.newStatus).remove :=
      (congrArg Step.remove hcore :)
    rw [Step.condemned_congr hremove] at hcondemned
    exact Step.condemned_of_settle hcondemned
  · have hremove : (t.stepAt other).remove = (s.stepAt other).remove :=
      (congrArg Step.remove hcore :)
    rwa [Step.condemned_congr hremove] at hcondemned

/-- The dependencies that a request leaves the step with. -/
theorem Accepts.target_deps (haccepts : Accepts config moment args ref enabled s t) :
    (t.stepAt ref).deps = ((s.stepAt ref).declare moment args).deps := by
  have hdeps : (t.stepAt ref).deps =
      (((s.openedStep moment args ref).report config moment args).declare moment args).deps :=
    (congrArg Step.deps haccepts.target :)
  have hplan : ((s.openedStep moment args ref).report config moment args).deps =
      (s.openedStep moment args ref).deps :=
    (congrArg Step.deps (Step.report_plan ..) :)
  have hopened := (openedStep_plan_fields s moment args ref).2.2.2.2.1
  rw [hdeps]
  unfold Step.declare
  dsimp only
  rw [hplan, hopened]

theorem Abandoned.accepts (habandoned : s.Abandoned) (hstored : s.Stored)
    (haccepts : Accepts config moment args ref enabled s t)
    (hdeps : args.holds enabled = true →
      ∀ dep ∈ ((s.stepAt ref).declare moment args).deps.elems, ∀ other ∈ s.getStep dep,
        other ≠ ref → (s.stepAt other).condemned = false) : t.Abandoned := by
  refine habandoned.imp fun other hfiled hcondemned => ?_
  have hne : other ≠ ref := by
    rintro rfl
    rw [haccepts.target_condemned] at hcondemned
    cases hcondemned
  rcases haccepts.fresh hfiled with hrow | ⟨-, -, -, -, hcore, -⟩
  · have hbefore := hstored.index.filed hrow
    have hlt := hstored.filed_lt hbefore
    have hmarked := haccepts.other_condemned hlt hne hcondemned
    refine ⟨hbefore, hmarked, ?_, haccepts.other_goes_on hlt hne⟩
    rw [haccepts.stakeholders other hlt, if_neg]
    rintro ⟨hholds, h | ⟨dep, hdep, hget⟩⟩
    · exact hne h
    · rw [haccepts.target_deps] at hdep
      have hunmarked := hdeps hholds dep hdep other hget hne
      rw [hmarked] at hunmarked
      cases hunmarked
  · have hremove : (t.stepAt other).remove = none := (congrArg Step.remove hcore :)
    unfold Step.condemned at hcondemned
    rw [hremove] at hcondemned
    cases hcondemned

end Accepts

theorem Abandoned.adds {args : AddStepArgs} {outcome : Except Raised Unit}
    (habandoned : s.Abandoned) (hstored : s.Stored)
    (hfinds : ∀ ref, (s.receiveStep config moment args).getStep args.stepId = some ref →
      (s.receiveStep config moment args).FindsUnmarked config moment args ref)
    (hadds : AddsStep config moment args (s.receiveStep config moment args) outcome t) :
    t.Abandoned := by
  have hreceived := habandoned.received hstored config moment args
  have hrstored := receiveStep_stored hstored config moment args
  generalize s.receiveStep config moment args = received at *
  cases hadds with
  | dropped => exact hreceived
  | @accepted ref t hget hclaim hstarts haccepts =>
      have hfound := hfinds ref hget
      unfold FindsUnmarked at hfound
      dsimp only at hfound
      rw [hclaim, if_neg (by decide), if_neg hstarts] at hfound
      exact hreceived.accepts hrstored haccepts hfound
  | @failed ref error hget hclaim hraises herror =>
      have hfound := hfinds ref hget
      unfold FindsUnmarked at hfound
      dsimp only at hfound
      rw [hclaim, if_neg (by decide), if_pos hraises] at hfound
      have hsame := fun other => received.stepAt_failedClaim args ref other
      refine hreceived.imp fun other hfiled hcondemned => ?_
      obtain ⟨hid, hstatus, hstakeholders, hremove, -, howner⟩ := hsame other
      rw [Step.condemned_congr hremove] at hcondemned
      refine ⟨?_, hcondemned, hstakeholders, fun hrunning => ?_⟩
      · unfold Filed at hfiled ⊢
        rwa [hid] at hfiled
      · rw [hstatus] at hrunning
        refine ⟨hrunning, howner.trans (if_neg ?_)⟩
        rintro rfl
        rw [hfound hcondemned] at hrunning
        cases hrunning

/-! ## Handing out -/

theorem Prepares.condemned {args : GetWorkArgs} (hprepares : Prepares now args s t) (ref : Ref) :
    (t.stepAt ref).condemned = (s.stepAt ref).condemned := by
  rw [hprepares.object]
  split
  · refine Step.condemned_congr ?_
    unfold Step.withStatus
    split <;> rfl
  · rfl

/-- Unmarked steps that are handed out. -/
theorem Abandoned.hands {change : Step → Step} {refs : List Ref} (habandoned : s.Abandoned)
    (hhands : Hands change refs s t) (hremove : ∀ step, (change step).remove = step.remove)
    (hunmarked : ∀ ref ∈ refs, (s.stepAt ref).condemned = false) : t.Abandoned := by
  refine habandoned.imp fun ref hfiled hcondemned => ?_
  rw [hhands.object] at hcondemned ⊢
  unfold Filed at hfiled ⊢
  rw [hhands.same.getStep, hhands.object] at hfiled
  split_ifs at hcondemned hfiled ⊢ with hpicked
  · rw [Step.condemned_congr (hremove _), hunmarked ref hpicked] at hcondemned
    cases hcondemned
  · exact ⟨hfiled, hcondemned, rfl, fun hrunning => ⟨hrunning, rfl⟩⟩

theorem Abandoned.handsOut {worker : WorkerId} {selection : Selection} {work : Work}
    (habandoned : s.Abandoned) (hhands : HandsOut env now worker selection s work t)
    (hunmarked : ∀ ref ∈ selection.picks, (s.stepAt ref).condemned = false) : t.Abandoned := by
  cases hhands with
  | nothing => exact habandoned
  | single hbest hsize hands =>
      refine habandoned.hands hands (fun step => ?_) fun ref href => ?_
      · unfold Step.handed Step.withStatus
        split <;> rfl
      · refine hunmarked ref ?_
        rw [Selection.picks, if_neg hsize, hbest]
        exact href
  | batch hsize hids hands =>
      refine habandoned.hands hands (fun step => ?_) fun ref href => ?_
      · unfold Step.reserved Step.withStatus
        split <;> rfl
      · refine hunmarked ref ?_
        rw [Selection.picks, if_pos hsize]
        exact href

/-! ## Pruning -/

/-- `prune` ends the run, as that of a dead worker or as a member of such a batch. -/
def Stops (s : Scheduler) (ref : Ref) : Prop :=
  (s.stepAt ref).runByDead s.assistants = true ∨
    ∃ combined ∈ s.activeSteps, s.Drags s.assistants combined ref

instance (s : Scheduler) (ref : Ref) : Decidable (s.Stops ref) := by
  unfold Stops; infer_instance

/-- An active worker runs the step, and `prune` marks it and leaves it running, or takes it
away at once. -/
def MarksRun (s : Scheduler) (config : Config) (now : Time) (ref : Ref) : Prop :=
  (s.stepAt ref).stakeholders = ∅ ∧ (s.stepAt ref).remove = none ∧ s.Needed ref ∧
    if s.Stops ref then config.removesAtOnce now = true
    else (s.stepAt ref).status = .batchRunning

instance (s : Scheduler) (config : Config) (now : Time) (ref : Ref) :
    Decidable (s.MarksRun config now ref) := by
  unfold MarksRun; infer_instance

/-- Where only members of batches run without a stakeholder, `prune` finds none. -/
def LeavesRuns (s : Scheduler) (config : Config) (now : Time) : Prop :=
  ∀ ref ∈ s.activeSteps, ¬s.MarksRun config now ref

instance (s : Scheduler) (config : Config) (now : Time) : Decidable (s.LeavesRuns config now) := by
  unfold LeavesRuns; infer_instance

theorem prune_stops_iff (hsound : s.Sound) (hrun : (prune config now).exec s = (.ok (), t))
    (hrunning : ((s.pruneWorkers config now).stepAt ref).status.isRunning = true)
    (hfiled : s.Filed ref) :
    (t.stepAt ref).status.isRunning = false ↔ (s.pruneWorkers config now).Stops ref := by
  obtain ⟨hnodup, hmem, visited, hvisits, hobjects⟩ :=
    prune_visits hsound.stored hsound.retriable hrun
  rw [hobjects, hvisits.stops hnodup hrunning]
  unfold Stops
  rw [hmem, and_iff_right hfiled]

theorem Abandoned.inactivates {workers : List WorkerId} (habandoned : s.Abandoned)
    (hinactivates : Inactivates workers s t) : t.Abandoned := by
  intro ref hfiled hcondemned
  have hbefore := (hinactivates.filed ref).mp hfiled
  rw [hinactivates.object] at hcondemned ⊢
  split_ifs at hcondemned ⊢
  · obtain ⟨hempty, howner⟩ := habandoned ref hbefore hcondemned
    refine ⟨?_, howner⟩
    unfold Step.withoutWorkers
    rw [if_pos rfl, hempty, Finset.filter_empty]
  · exact habandoned ref hbefore hcondemned

/-- `prune` marks no step that an active worker runs. -/
theorem Abandoned.pruned (habandoned : s.Abandoned) (hsound : s.Sound)
    (hrun : (prune config now).exec s = (.ok (), t)) (hprunes : Prunes config now s t)
    (hleaves : (s.pruneWorkers config now).LeavesRuns config now) : t.Abandoned := by
  have hkept := habandoned.inactivates hprunes.inactivates
  have hrostered := (hsound.inactivates hprunes.inactivates).rostered
  intro ref hfiled hcondemned
  have hbefore := hprunes.filed hfiled
  have hkeptFiled := (hprunes.inactivates.filed ref).mpr hbefore
  have hswept := hprunes.object ref
  rcases hswept.remove with hsame | hstamp | ⟨-, hnone, hempty, hstatus⟩
  · rw [Step.condemned_congr hsame] at hcondemned
    obtain ⟨hempty, howner⟩ := hkept ref hkeptFiled hcondemned
    refine ⟨hswept.stakeholders.trans hempty, fun hrunning => ?_⟩
    have hgoes := hswept.running hrunning
    exact hgoes.workerRunning.trans (howner (hgoes.status ▸ hrunning))
  · unfold Step.condemned at hcondemned
    rw [hstamp] at hcondemned
    cases hcondemned
  · refine ⟨hswept.stakeholders.trans hempty, fun hrunning => ?_⟩
    have hgoes := hswept.running hrunning
    have hrunning' : ((s.pruneWorkers config now).stepAt ref).status.isRunning = true :=
      hgoes.status ▸ hrunning
    have hbatch : ((s.pruneWorkers config now).stepAt ref).status = .batchRunning := by
      rw [← hgoes.status]
      exact (Status.isRunning_iff.mp hrunning).resolve_left hstatus
    have hgoesOn : ¬(s.pruneWorkers config now).Stops ref := fun hstops => by
      rw [(prune_stops_iff hsound hrun hrunning' hbefore).mpr hstops] at hrunning
      cases hrunning
    rw [hgoes.workerRunning]
    by_contra howner
    -- an owner that is alive without a stake is an assistant
    obtain ⟨owner, howner⟩ := Option.ne_none_iff_exists'.mp howner
    have halive : owner ∈ (s.pruneWorkers config now).assistants := by
      by_contra hdead
      refine hgoesOn (.inl ?_)
      unfold Step.runByDead
      rw [howner]
      simp [hrunning', hempty, hdead]
    have hneeded : (s.pruneWorkers config now).Needed ref :=
      .inr ⟨hrunning', owner, howner, ((mem_assistants hrostered).mp halive).knows⟩
    refine hleaves ref (hprunes.inactivates.stored.index.mem_activeSteps.mpr hkeptFiled)
      ⟨hempty, hnone, hneeded, ?_⟩
    rw [if_neg hgoesOn]
    exact hbatch

/-- `prune` drops no step somebody still needs. -/
theorem Abandoned.spares (habandoned : s.Abandoned) (hsound : s.Sound)
    (hrun : (prune config now).exec s = (.ok (), t)) (hprunes : Prunes config now s t)
    (hleaves : (s.pruneWorkers config now).LeavesRuns config now) (hfiled : s.Filed ref)
    (hgone : ¬t.Filed ref) :
    (((s.pruneWorkers config now).stepAt ref).stakeholders = ∅ ∧
      ¬(s.pruneWorkers config now).Needed ref) ∨ (t.stepAt ref).ofFailedBatch = true := by
  have hkept := habandoned.inactivates hprunes.inactivates
  have hkeptFiled := (hprunes.inactivates.filed ref).mpr hfiled
  obtain ⟨visited, hsweeps, hdue, hrest⟩ :=
    prune_removes hsound.stored hsound.retriable hrun hfiled hgone
  by_cases hfailed : (t.stepAt ref).ofFailedBatch = true
  · exact .inr hfailed
  obtain ⟨removal, hremoval⟩ : ∃ removal, (visited.stepAt ref).remove = some removal := by
    cases hremove : (visited.stepAt ref).remove with
    | none => simp [Step.mayPrune, hremove] at hdue
    | some removal => exact ⟨removal, rfl⟩
  have hlast : (t.stepAt ref).remove = some removal := by
    rcases hrest.remove with hsame | hstamp | ⟨-, hnone, -⟩
    · exact hsame.trans hremoval
    · exact absurd (by rw [Step.ofFailedBatch, hstamp]; rfl) hfailed
    · rw [hnone] at hremoval
      cases hremoval
  have hplain : removal.failedBatch = false := by
    rw [Step.ofFailedBatch, hlast] at hfailed
    simpa using hfailed
  refine .inl ?_
  rcases (hsweeps.object ref).remove with hsame | hstamp | ⟨hstamp, hnone, hempty, hstatus⟩
  · have hcondemned : ((s.pruneWorkers config now).stepAt ref).condemned = true := by
      rw [Step.condemned, ← hsame, hremoval]
      simpa using hplain
    exact ⟨(hkept ref hkeptFiled hcondemned).1, hkept.not_needed hkeptFiled hcondemned⟩
  · rw [hremoval] at hstamp
    rw [Option.some.inj hstamp] at hplain
    cases hplain
  · refine ⟨hempty, fun hneeded => hleaves ref
      (hprunes.inactivates.stored.index.mem_activeSteps.mpr hkeptFiled)
      ⟨hempty, hnone, hneeded, ?_⟩⟩
    split
    · exact removesAtOnce_of_due hstamp hdue
    · -- the run of a step that is in no batch outlasts the loop
      rename_i hgoesOn
      rcases hneeded with ⟨worker, hworker, -⟩ | ⟨hrunning, -⟩
      · rw [hempty] at hworker
        exact absurd hworker (Finset.notMem_empty worker)
      · rcases Status.isRunning_iff.mp hrunning with hown | hbatch
        · have hgoes : (t.stepAt ref).status.isRunning = true := by
            rw [← Bool.not_eq_false, prune_stops_iff hsound hrun hrunning hfiled]
            exact hgoesOn
          refine absurd ?_ hstatus
          rw [← (hrest.running hgoes).status, ((hprunes.object ref).running hgoes).status]
          exact hown
        · exact hbatch

end Scheduler

end Trun
