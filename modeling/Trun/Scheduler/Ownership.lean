import Trun.Scheduler.Transitions

/-!
# Who may change a running step

The guard of `add_step` is meant to leave a running step to the worker that runs
it.  It does, except for a report that brings `new_deps`.
-/

namespace Trun

open Program

namespace Scheduler

variable {s t : Scheduler}

/-! ## Calls that the guard stops -/

/-- A run goes on as recorded. -/
def Runs (s : Scheduler) (ref : Ref) (status : Status) (owner : WorkerId) : Prop :=
  ref < s.nextRef ∧ (s.stepAt ref).status = status ∧ (s.stepAt ref).workerRunning = some owner

/-- The programs that leave a run alone. -/
def sparing (ref : Ref) (status : Status) (owner : WorkerId) : Contract Raised Scheduler where
  inv s := s.Runs ref status owner
  rel _ _ := True
  allows _ := True
  refl _ := trivial
  trans _ _ := trivial

section Sparing

variable {ref : Ref} {status : Status} {owner : WorkerId}

theorem Runs.of_object (hruns : s.Runs ref status owner) (hnext : s.nextRef ≤ t.nextRef)
    (hstatus : (t.stepAt ref).status = (s.stepAt ref).status)
    (howner : (t.stepAt ref).workerRunning = (s.stepAt ref).workerRunning) :
    t.Runs ref status owner :=
  ⟨hruns.1.trans_le hnext, hstatus.trans hruns.2.1, howner.trans hruns.2.2⟩

theorem Runs.updateStep (hruns : s.Runs ref status owner) {other : Ref} {change : Step → Step}
    (hchange : ∀ step, (change step).status = step.status ∧
      (change step).workerRunning = step.workerRunning) :
    (s.updateStep other change).Runs ref status owner := by
  refine hruns.of_object (le_refl _) ?_ ?_ <;> rw [stepAt_updateStep] <;> split
  · exact (hchange _).1
  · rfl
  · exact (hchange _).2
  · rfl

theorem Runs.setdefaultStep (hruns : s.Runs ref status owner) (step : Step)
    (hblank : step.Blank) :
    (s.setdefaultStep step).Runs ref status owner := by
  have hsame : (s.setdefaultStep step).stepAt ref = s.stepAt ref := by
    cases hget : s.getStep step.id with
    | some other => simp only [Scheduler.setdefaultStep, insertStep, hget, stepAt_fileStep]
    | none => rw [stepAt_setdefaultStep hget, if_neg (Nat.ne_of_lt hruns.1)]
  exact hruns.of_object (edits_setdefaultStep s step hblank).nextRef_le (by rw [hsame])
    (by rw [hsame])

theorem Runs.describes (hruns : s.Runs ref status owner) (hdescribes : Describes s t) :
    t.Runs ref status owner :=
  hruns.of_object (le_of_eq hdescribes.same.nextRef.symm)
    (congrArg Step.status (hdescribes.core ref) :)
    (congrArg Step.workerRunning (hdescribes.core ref) :)

theorem Runs.raises (hruns : s.Runs ref status owner) (hraises : Raises s t) :
    t.Runs ref status owner :=
  hruns.describes hraises.describes

end Sparing

/-! ## Changes of a status that change nothing -/

structure SameObjects (s t : Scheduler) : Prop where
  same : SameTables s t
  statusSteps : t.statusSteps = s.statusSteps
  stepAt : ∀ ref, t.stepAt ref = s.stepAt ref

theorem SameObjects.updateStep (hsame : SameObjects s t) {ref : Ref} {change : Step → Step}
    (hchange : change (s.stepAt ref) = s.stepAt ref) :
    SameObjects s (t.updateStep ref change) where
  same := hsame.same.trans (sameTables_updateStep ..)
  statusSteps := hsame.statusSteps
  stepAt := fun other => by
    rw [stepAt_updateStep]
    split
    · rename_i hother
      rw [hsame.stepAt, hother, hchange]
    · exact hsame.stepAt other

/-- The programs that change nothing and do not fail. -/
def idling (s : Scheduler) : Contract Raised Scheduler where
  inv := SameObjects s
  rel _ _ := True
  allows _ := False
  refl _ := trivial
  trans _ _ := trivial

theorem stampFailure_eq_pure {now : Time} {ref : Ref} {newStatus : Status} {combined : Bool}
    {config : Option Config} (hnew : newStatus ≠ .failed) :
    stampFailure now ref newStatus combined config = pure () := by
  cases newStatus with
  | failed => exact absurd rfl hnew
  | _ => rfl

/-- `set_status` does nothing to a running step when it brings the status the step has,
or when it is to disable it. -/
theorem setStatus_idles {ref : Ref} (newStatus : Status)
    (hrunning : (s.stepAt ref).status.isRunning = true)
    (hnew : newStatus = (s.stepAt ref).status ∨ newStatus = .disabled) (now : Time)
    (config : Config) :
    Meets (idling s) (setStatus now ref newStatus (some config)) s := by
  have hself : SameObjects s s := ⟨.refl s, rfl, fun _ => rfl⟩
  refine .get_bind (.ite (fun h => by cases h.2) fun _ => .ite (fun _ => .pure _ hself)
    fun hignores => ?_)
  have hsame : newStatus = (s.stepAt ref).status := hnew.resolve_right fun hdisabled =>
    hignores (by simp only [Step.ignores, hdisabled, hrunning, beq_self_eq_true, Bool.and_self,
      Bool.true_or])
  have hchanges : newStatus ≠ .failed ∧ newStatus ≠ .disabled := by
    rw [← hsame] at hrunning
    constructor <;> rintro rfl <;> cases hrunning
  have hrevive : (s.stepAt ref).revive newStatus = s.stepAt ref := by
    unfold Step.revive
    rw [if_neg fun h => hchanges.2 (hsame.trans h.1)]
  unfold applyStatus
  refine .get_bind (.bind (.modify (hself.updateStep hrevive) trivial) fun _ t _ ht =>
    .bind ?_ fun _ u _ hu => .get_bind (.get_bind ?_))
  · have hkeeps : (t.stepAt ref).releasesBatch newStatus = false := by
      rw [ht.stepAt, Step.releasesBatch, ← hsame]
      cases newStatus <;> simp
    refine .get_bind ?_
    dsimp only
    rw [hkeeps]
    exact .pure _ ht
  · have haccount : ∀ step : Step, step.account now newStatus = (step, newStatus) := by
      intro step
      unfold Step.account
      rw [if_neg fun h => hchanges.1 h.1, if_neg hchanges.2]
    rw [haccount]
    refine .bind (.modify (hu.updateStep (by rw [haccount])) trivial) fun _ v _ hv =>
      .bind ?_ fun _ w _ hw => .bind ?_ fun _ x _ hx => ?_
    · refine .get_bind (.ite (fun _ => .pure _ hv) fun hne => ?_)
      exact absurd (hsame.trans (by rw [hv.stepAt])) hne
    · rw [stampFailure_eq_pure hchanges.1]
      exact .pure _ hw
    · have hquiet : (u.stepAt ref).countsFailure newStatus = false := by
        simp only [Step.countsFailure, beq_eq_false_iff_ne.mpr hchanges.1, Bool.false_and]
      rw [hquiet]
      exact .modify (hx.updateStep rfl) trivial

end Scheduler

/-- The reports on a running step that leave its run alone, whoever sends them. -/
def Step.Shields (step : Step) (args : AddStepArgs) (enabled : Bool) : Prop :=
  args.hasNewDeps = false ∨ args.newStatus = step.status ∨ args.newStatus = .disabled ∨
    (step.status = .batchRunning ∧ enabled = false)

namespace Scheduler

variable {s t : Scheduler} {config : Config} {moment : Moment} {args : AddStepArgs}
  {ref : Ref} {status : Status} {owner : WorkerId}

theorem Runs.receiveStep (hruns : s.Runs ref status owner) :
    (s.receiveStep config moment args).Runs ref status owner := by
  have hgreets := greets_updateWorker s moment.now args.worker false
  have hgreeted : (s.updateWorker moment.now args.worker false).Runs ref status owner := by
    refine hruns.of_object (le_of_eq hgreets.nextRef.symm) ?_ ?_ <;> rw [hgreets.stepAt]
  unfold Scheduler.receiveStep
  dsimp only
  split
  · exact hgreeted.setdefaultStep _ rfl
  · exact hgreeted

theorem Runs.addStakeholders (hruns : s.Runs ref status owner) (other : Ref) (enabled : Bool) :
    (s.addStakeholders config moment args other enabled).Runs ref status owner := by
  have hfold : ∀ (deps : List StepId) (s : Scheduler), s.Runs ref status owner →
      (deps.foldl (holdDependency config moment args) s).Runs ref status owner := by
    intro deps
    induction deps with
    | nil => exact fun _ h => h
    | cons dep rest ih =>
        intro s hruns
        have hset := hruns.setdefaultStep
          (Step.make config moment.now dep .unknown ∅ args.priority) rfl
        refine ih _ ?_
        unfold holdDependency
        dsimp only
        split
        · exact hset
        · exact hset.updateStep fun _ => ⟨rfl, rfl⟩
  unfold Scheduler.addStakeholders
  dsimp only
  split
  · exact hfold _ _ (hruns.updateStep fun _ => ⟨rfl, rfl⟩)
  · exact hruns

theorem Runs.registerWorker (hruns : s.Runs ref status owner) (other : Ref) (enabled : Bool) :
    (s.registerWorker config moment args other enabled).Runs ref status owner := by
  refine hruns.of_object (inserts_registerWorker config moment args other enabled s).nextRef_le
    ?_ ?_ <;> rw [stepAt_registerWorker] <;> split
  · rename_i h
    rw [h]
    rfl
  · rfl
  · rename_i h
    rw [h]
    rfl
  · rfl

/-- The beginning of a request on a known step touches no step. -/
theorem receiveStep_of_get (config : Config) (moment : Moment) (args : AddStepArgs)
    (hget : s.getStep args.stepId = some ref) :
    (s.receiveStep config moment args).getStep args.stepId = some ref ∧
      (∀ other, (s.receiveStep config moment args).stepAt other = s.stepAt other) ∧
      ∀ worker, ((s.receiveStep config moment args).workerAt worker).enabled =
        (s.workerAt worker).enabled := by
  have hgreets := greets_updateWorker s moment.now args.worker false
  have henabled : ∀ worker, ((s.updateWorker moment.now args.worker false).workerAt
      worker).enabled = (s.workerAt worker).enabled := fun worker => by
    simp only [Worker.enabled, (hgreets.worker worker).2.2]
  have hgreeted : (s.updateWorker moment.now args.worker false).getStep
      (args.defaultStep config moment).id = some ref := (hgreets.getStep _).trans hget
  have hfile : (s.updateWorker moment.now args.worker false).setdefaultStep
      (args.defaultStep config moment) =
        (s.updateWorker moment.now args.worker false).fileStep ref := by
    simp only [setdefaultStep, insertStep, hgreeted]
  unfold receiveStep
  dsimp only
  split
  · rw [hfile]
    exact ⟨hgreeted, hgreets.stepAt, henabled⟩
  · exact ⟨hgreeted, hgreets.stepAt, henabled⟩

theorem openedStep_ignores (s : Scheduler) (moment : Moment) (args : AddStepArgs) (ref : Ref)
    (newStatus : Status) :
    (s.openedStep moment args ref).ignores newStatus = (s.stepAt ref).ignores newStatus := by
  obtain ⟨-, -, hstatus, -, -, hdisable, -⟩ := openedStep_plan_fields s moment args ref
  simp only [Step.ignores, hstatus, hdisable]

/-- In front of the guard an owner that is recorded is not replaced. -/
theorem openedStep_owner (howner : (s.stepAt ref).workerRunning = some owner) :
    (s.openedStep moment args ref).workerRunning = some owner := by
  rw [openedStep_workerRunning, howner, if_neg fun h => by cases h.2]

theorem openedStep_acceptsReport (moment : Moment) (args : AddStepArgs)
    (howner : (s.stepAt ref).workerRunning = some owner) :
    (s.openedStep moment args ref).acceptsReport args = (s.stepAt ref).acceptsReport args := by
  obtain ⟨-, -, hstatus, -⟩ := openedStep_plan_fields s moment args ref
  simp only [Step.acceptsReport, hstatus, openedStep_owner howner, howner]

/-- An accepted request of another worker that the guard stops. -/
theorem acceptStep_spares (hruns : s.Runs ref status owner) (hrunning : status.isRunning = true)
    (hforeign : owner ≠ args.worker) (enabled : Bool)
    (hshields : args.hasNewDeps = false ∨ args.newStatus = status ∨
      args.newStatus = .disabled) :
    Meets (sparing ref status owner) (acceptStep config moment args ref enabled) s := by
  have hjoined : (s.joinStep args ref).Runs ref status owner :=
    hruns.updateStep fun _ => ⟨rfl, rfl⟩
  unfold acceptStep
  refine .bind (.modify hjoined trivial) fun _ t _ ht => .bind ?_ fun _ u _ hu => ?_
  · refine .get_bind (.ite (fun h => ?_) fun _ => .pure _ ht)
    rw [ht.2.2] at h
    cases h.2
  refine .bind (.modify ?_ trivial) fun _ v _ hv => .bind ?_ fun _ w _ hw => ?_
  · refine Runs.describes (Runs.updateStep hu fun step => ?_) (describes_describeStep u args ref)
    exact ⟨rfl, rfl⟩
  · refine .get_bind (.ite (fun hguard => ?_) fun _ => .pure _ hv)
    have hnew : args.hasNewDeps = true := by
      have hstops : (!(v.stepAt ref).status.isRunning ||
          (args.startedARun && (v.stepAt ref).workerRunning == some args.worker)) = false := by
        simp only [hv.2.1, hv.2.2, hrunning, Bool.not_true, Bool.false_or, Bool.and_eq_false_iff,
          beq_eq_false_iff_ne, ne_eq, Option.some.injEq, hforeign, not_false_eq_true, or_true]
      unfold Step.acceptsReport at hguard
      rwa [hstops, Bool.false_or] at hguard
    have hkept := hshields.resolve_left fun h => by rw [h] at hnew; cases hnew
    obtain ⟨hidle, -, -⟩ := setStatus_idles args.newStatus (s :=
      v) (hv.2.1 ▸ hrunning) (hv.2.1 ▸ hkept) moment.now config
    refine ⟨hv.of_object (le_of_eq hidle.same.nextRef.symm) ?_ ?_, trivial, fun _ _ => trivial⟩
    · rw [hidle.stepAt]
    · rw [hidle.stepAt]
  · refine .bind (.modify (hw.updateStep fun _ => ⟨rfl, rfl⟩) trivial) fun _ t _ ht => ?_
    refine .bind (.modify (ht.addStakeholders ref enabled) trivial) fun _ u _ hu => ?_
    obtain ⟨v, hrun, hraises, -⟩ := updatePriority_spec u args.priority ref
    refine .bind (.of_exec hrun (hu.raises hraises) trivial fun _ _ => trivial) fun _ w _ hw => ?_
    exact .modify (hw.registerWorker ref enabled) trivial

end Scheduler

open Scheduler

namespace Env

variable (env : Env) {s : Scheduler} {moment : Moment} {args : AddStepArgs} {ref : Ref}
  {owner : WorkerId}

/-- The request leaves the step's status and its recorded owner unchanged. -/
def SparesRun (s : Scheduler) (moment : Moment) (args : AddStepArgs) (ref : Ref) : Prop :=
  ((env.after s ⟨moment, .addStep args⟩).stepAt ref).status = (s.stepAt ref).status ∧
    ((env.after s ⟨moment, .addStep args⟩).stepAt ref).workerRunning =
      (s.stepAt ref).workerRunning

instance (s : Scheduler) (moment : Moment) (args : AddStepArgs) (ref : Ref) :
    Decidable (env.SparesRun s moment args ref) := by
  unfold SparesRun; infer_instance

/-- A request on a running step that the guard or a test in front of it stops. -/
theorem sparesRun_of_shields (hrows : s.Rows) (hget : s.getStep args.stepId = some ref)
    (hrunning : (s.stepAt ref).status.isRunning = true)
    (howner : (s.stepAt ref).workerRunning = some owner) (hforeign : owner ≠ args.worker)
    (hshields : (s.stepAt ref).Shields args (s.workerAt args.worker).enabled) :
    env.SparesRun s moment args ref := by
  obtain ⟨hrow, hobject, henabled⟩ := receiveStep_of_get env.config moment _ hget
  set received := s.receiveStep env.config moment args with hreceived
  have hruns : received.Runs ref (s.stepAt ref).status owner :=
    Runs.receiveStep ⟨(hrows _ _ hget).1, rfl, howner⟩
  have hmeets : Meets (sparing ref (s.stepAt ref).status owner)
      (addStep env.config moment args) s := by
    refine .bind (.modify hruns trivial) fun _ t hrun ht => .get_bind ?_
    obtain rfl : received = t := congrArg Prod.snd hrun
    dsimp only
    rw [hrow]
    refine .ite (fun _ => .pure _ ht) fun hclaim => ?_
    refine acceptStep_spares ht hrunning hforeign _ ?_
    rcases hshields with hnew | hsame | hdisabled | ⟨hstatus, hworker⟩
    · exact .inl hnew
    · exact .inr (.inl hsame)
    · exact .inr (.inr hdisabled)
    · refine absurd ?_ hclaim
      simp only [Step.dropsClaim, hobject, hstatus, henabled, hworker, Bool.not_false,
        Bool.and_true]
      rfl
  obtain ⟨⟨-, hstatus, howner'⟩, -⟩ := reply_meets (fun _ => Response.nothing) hmeets
  exact ⟨hstatus, howner'.trans howner.symm⟩

/-- A report on an owned step that no test stops takes effect. -/
theorem status_of_report (moment : Moment) (hsound : s.Sound)
    (hget : s.getStep args.stepId = some ref)
    (howner : (s.stepAt ref).workerRunning = some owner)
    (hclaim : (s.stepAt ref).dropsClaim env.config moment args
      (s.workerAt args.worker).enabled = false)
    (haccepts : (s.stepAt ref).acceptsReport args = true)
    (hignores : (s.stepAt ref).ignores args.newStatus = false) :
    ((env.after s ⟨moment, .addStep args⟩).stepAt ref).status = args.newStatus ∨
      ((env.after s ⟨moment, .addStep args⟩).stepAt ref).status = .disabled := by
  obtain ⟨hrow, hobject, henabled⟩ := receiveStep_of_get env.config moment _ hget
  obtain ⟨outcome, hadds, -⟩ := hsound.after_addStep env moment args
  generalize env.after s ⟨moment, .addStep args⟩ = t at hadds ⊢
  generalize s.receiveStep env.config moment args = received at hadds hrow hobject henabled
  cases hadds with
  | dropped hdropped =>
      have hdrops := hdropped ref hrow
      rw [hobject, henabled, hclaim] at hdrops
      cases hdrops
  | failed hgot _ hraises =>
      obtain rfl := Option.some.inj (hrow.symm.trans hgot)
      have hunclaimed : (received.stepAt ref).workerRunning = none := by
        rw [← workerRunning_joinStep]
        exact hraises.1.2
      rw [hobject, howner] at hunclaimed
      cases hunclaimed
  | accepted hgot _ _ haccepted =>
      obtain rfl := Option.some.inj (hrow.symm.trans hgot)
      have hreceived : (received.stepAt ref).workerRunning = some owner := by rw [hobject, howner]
      have hopenedAccepts := openedStep_acceptsReport moment args hreceived
      have hopenedIgnores := openedStep_ignores received moment args ref args.newStatus
      rw [hobject, haccepts] at hopenedAccepts
      rw [hobject, hignores] at hopenedIgnores
      have htarget : (t.stepAt ref).status = ((received.openedStep moment args ref).settle
          (some env.config) moment.now args.newStatus).status := by
        have hcore := (congrArg Step.status haccepted.target :)
        rw [Step.report, if_pos hopenedAccepts] at hcore
        exact hcore
      rw [htarget]
      exact (Step.settle_status_cases _ _ _ _ hopenedIgnores).imp_right fun h => h.2

/-- On an exact index no other request on a running step is stopped. -/
theorem shields_of_sparesRun (hsound : s.Sound) (hget : s.getStep args.stepId = some ref)
    (hrunning : (s.stepAt ref).status.isRunning = true)
    (howner : (s.stepAt ref).workerRunning = some owner)
    (hspares : env.SparesRun s moment args ref) :
    (s.stepAt ref).Shields args (s.workerAt args.worker).enabled := by
  by_contra hnot
  simp only [Step.Shields, not_or, not_and, Bool.not_eq_false] at hnot
  obtain ⟨hnew, hsame, hdisabled, hworker⟩ := hnot
  have hstatus := Status.isRunning_iff.mp hrunning
  have hclaim : (s.stepAt ref).dropsClaim env.config moment args
      (s.workerAt args.worker).enabled = false := by
    unfold Step.dropsClaim
    rcases hstatus with h | h
    · rw [h, Bool.or_eq_false_iff]
      exact ⟨rfl, by rw [Bool.and_assoc]; exact Bool.and_false _⟩
    · rw [hworker h, h, Bool.or_eq_false_iff]
      exact ⟨rfl, by rw [Bool.and_assoc]; exact Bool.and_false _⟩
  have haccepts : (s.stepAt ref).acceptsReport args = true := by
    simp only [Step.acceptsReport, hnew, Bool.or_true]
  have hignores : (s.stepAt ref).ignores args.newStatus = false := by
    have hold : (s.stepAt ref).status ≠ .disabled := by
      intro h
      rw [h] at hrunning
      cases hrunning
    simp only [Step.ignores, beq_eq_false_iff_ne.mpr hdisabled, beq_eq_false_iff_ne.mpr hold,
      Bool.false_and, Bool.or_self]
  rcases env.status_of_report moment hsound hget howner hclaim haccepts hignores
    with hafter | hafter
  · exact hsame (hafter.symm.trans hspares.1)
  · rw [← hspares.1, hafter] at hrunning
    cases hrunning

/-- In every reachable state a request of another worker that brings no new
dependencies, or a status the step has or may not take, leaves a running step and its
owner alone; where no removed step was handed out before, no other request does. -/
theorem foreign_request_spares (resources : Resources) (events : List Event)
    (hget : (env.run (.initial resources) events).getStep args.stepId = some ref)
    (hrunning : ((env.run (.initial resources) events).stepAt ref).status.isRunning = true)
    (howner : ((env.run (.initial resources) events).stepAt ref).workerRunning = some owner)
    (hforeign : owner ≠ args.worker) :
    (((env.run (.initial resources) events).stepAt ref).Shields args
        ((env.run (.initial resources) events).workerAt args.worker).enabled →
      env.SparesRun (env.run (.initial resources) events) moment args ref) ∧
    (Along env.after (HandsOutFiledSteps env) (.initial resources) events →
      env.SparesRun (env.run (.initial resources) events) moment args ref →
      ((env.run (.initial resources) events).stepAt ref).Shields args
        ((env.run (.initial resources) events).workerAt args.worker).enabled) := by
  refine ⟨fun hshields => ?_, fun hhands hspares => ?_⟩
  · exact env.sparesRun_of_shields (run_rows env resources events) hget hrunning howner hforeign
      hshields
  · exact env.shields_of_sparesRun (env.run_sound hhands).1 hget hrunning howner hspares

end Env

/-- The first worker runs a step that the second one scheduled as well. -/
def sharedRun : List Event :=
  [ requestAt 1 (schedules firstWorker "a"),
    requestAt 2 (schedules secondWorker "a"),
    requestAt 3 (.getWork { worker := firstWorker, currentSteps := some [] }) ]

/-- The request of the second worker that brings a new dependency. -/
def foreignReport : AddStepArgs :=
  { worker := secondWorker, stepId := "a", newDeps := some ["b"] }

/-- The step is taken from the worker that runs it. -/
theorem foreign_report_stops_run :
    Timely sharedRun ∧
      (defaultEnv.run (.initial ∅) sharedRun).getStep "a" = some 0 ∧
      ((defaultEnv.run (.initial ∅) sharedRun).stepAt 0).status = .running ∧
      ((defaultEnv.run (.initial ∅) sharedRun).stepAt 0).workerRunning = some firstWorker ∧
      ¬defaultEnv.SparesRun (defaultEnv.run (.initial ∅) sharedRun) { now := 4 }
        foreignReport 0 := by
  decide +kernel

theorem foreign_failure_spares :
    (defaultEnv.SparesRun (defaultEnv.run (.initial ∅) sharedRun) { now := 4 }
      { worker := secondWorker, stepId := "a", status := .failed } 0) := by
  have hspares := @Env.foreign_request_spares defaultEnv { now := 4 }
    { worker := secondWorker, stepId := "a", status := .failed } 0 firstWorker ∅ sharedRun
    (by decide +kernel) (by decide +kernel) (by decide +kernel) (by decide)
  exact hspares.1 (.inl rfl)

end Trun
