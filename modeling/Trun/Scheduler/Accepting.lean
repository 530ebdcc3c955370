import Trun.Scheduler.Describing

/-!
# What `add_step` does

`Accepts` says what an accepted request does to the core of every step, to the
step table and to the workers.
-/

namespace Trun

open Program

/-! ## Claiming a run -/

/-- The step of which a worker says that it has started to run it. -/
def Step.claim (step : Step) (moment : Moment) (args : AddStepArgs)
    (copied : Option Resources) : Step :=
  { step with
    workerRunning := some args.worker
    timeRunning := some moment.now
    resourcesRunning := copied <|> step.resourcesRunning
    resourcesShared := if copied.isSome then false else step.resourcesShared }

/-- `status == RUNNING and not step.worker_running`. -/
def Step.claimedBy (step : Step) (args : AddStepArgs) : Prop :=
  args.status = .running ∧ step.workerRunning = none

instance (step : Step) (args : AddStepArgs) : Decidable (step.claimedBy args) := by
  unfold Step.claimedBy; infer_instance

@[simp] theorem Step.core_addStakeholder (step : Step) (worker : WorkerId) :
    (step.addStakeholder worker).core = step.core := rfl

theorem Step.addStakeholder_of_mem {step : Step} {worker : WorkerId}
    (hmem : worker ∈ step.stakeholders) : step.addStakeholder worker = step := by
  simp only [addStakeholder, Finset.insert_eq_of_mem hmem]

theorem Step.addStakeholder_twice (step : Step) (worker : WorkerId) :
    (step.addStakeholder worker).addStakeholder worker = step.addStakeholder worker := by
  simp [addStakeholder]

namespace Scheduler

variable {s t : Scheduler}

/-- The resources a batch runs with; none where looking them up raises. -/
def batchResources (s : Scheduler) (batchId : BatchId) : Option Resources :=
  (s.batchRunningSteps batchId).head?.bind fun first => (s.stepAt first).resourcesRunning

/-- The resources a claim copies; the outer option is absent where it raises. -/
def claimResources (s : Scheduler) (args : AddStepArgs) : Option (Option Resources) :=
  match args.batchId with
  | none => some none
  | some batchId => if batchId = "" then some none else (s.batchResources batchId).map some

/-- The step after `claimRun`. -/
def claimStep (s : Scheduler) (moment : Moment) (args : AddStepArgs) (step : Step) : Step :=
  if step.claimedBy args then step.claim moment args ((s.claimResources args).getD none)
  else step

/-- `claimRun` raises where the batch is gone. -/
def claimFails (s : Scheduler) (args : AddStepArgs) (step : Step) : Prop :=
  step.claimedBy args ∧ s.claimResources args = none

instance (s : Scheduler) (args : AddStepArgs) (step : Step) :
    Decidable (s.claimFails args step) := by
  unfold claimFails; infer_instance

/-- The lookups of a batch do not depend on who owns a step. -/
private theorem claimResources_updateStep (s : Scheduler) (args : AddStepArgs) (ref : Ref)
    (owner : Option WorkerId) :
    (s.updateStep ref fun step => { step with workerRunning := owner }).claimResources args =
      s.claimResources args := by
  have hbatch : ∀ batchId, (s.updateStep ref fun step =>
      { step with workerRunning := owner }).batchRunningSteps batchId =
        s.batchRunningSteps batchId := by
    intro batchId
    unfold batchRunningSteps
    refine List.filter_congr fun other _ => ?_
    by_cases hother : other = ref <;> simp [hother]
  have hresources : ∀ other, ((s.updateStep ref fun step =>
      { step with workerRunning := owner }).stepAt other).resourcesRunning =
        (s.stepAt other).resourcesRunning := by
    intro other
    by_cases hother : other = ref <;> simp [hother]
  simp only [claimResources, batchResources, hbatch, hresources]

theorem joinRunning_spec (hindex : s.Indexed) {ref : Ref} {args : AddStepArgs}
    {copied : Option Resources} (hcopied : s.claimResources args = some copied) :
    Writes (joinRunning args ref) s (Function.update s.stepAt ref
      { s.stepAt ref with
        resourcesRunning := copied <|> (s.stepAt ref).resourcesRunning
        resourcesShared := if copied.isSome then false else (s.stepAt ref).resourcesShared }) := by
  have hidle : Writes (pure ()) s (Function.update s.stepAt ref (s.stepAt ref)) := by
    simpa using Writes.pure hindex
  unfold claimResources at hcopied
  unfold joinRunning
  cases hid : args.batchId with
  | none =>
      obtain rfl : none = copied := by simpa [hid] using hcopied
      exact hidle
  | some batchId =>
      by_cases hempty : batchId = ""
      · obtain rfl : none = copied := by simpa [hid, hempty] using hcopied
        simp only [hempty, if_true]
        exact hidle
      · simp only [hid, hempty, if_false, batchResources, Option.map_eq_some_iff,
          Option.bind_eq_some_iff] at hcopied ⊢
        obtain ⟨resources, ⟨first, hfirst, hresources⟩, rfl⟩ := hcopied
        have hhead : s.batchRunningSteps batchId =
            first :: (s.batchRunningSteps batchId).tail :=
          List.eq_cons_of_mem_head? hfirst
        have hwrite := Writes.updateStep hindex ref (fun step =>
          { step with resourcesRunning := some resources, resourcesShared := false }) rfl rfl
        unfold Writes copyBatchResources at *
        rw [exec_get_bind, hhead]
        simp only [hresources]
        exact hwrite

theorem claimRun_spec (hindex : s.Indexed) {ref : Ref} (moment : Moment) {args : AddStepArgs}
    (hclaim : ¬s.claimFails args (s.stepAt ref)) :
    Writes (claimRun moment args ref) s
      (Function.update s.stepAt ref (s.claimStep moment args (s.stepAt ref))) := by
  by_cases hclaimed : (s.stepAt ref).claimedBy args
  · set s1 := s.updateStep ref fun step => { step with workerRunning := some args.worker }
      with hs1
    obtain ⟨copied, hcopied⟩ : ∃ copied, s.claimResources args = some copied := by
      cases hresources : s.claimResources args with
      | none => exact absurd ⟨hclaimed, hresources⟩ hclaim
      | some copied => exact ⟨copied, rfl⟩
    have hcopied1 : s1.claimResources args = some copied := by
      rw [hs1, claimResources_updateStep, hcopied]
    have hstarted : Writes (do
        joinRunning args ref
        modify fun s => s.updateStep ref fun step => { step with timeRunning := some moment.now })
        s1 (Function.update s.stepAt ref ((s.stepAt ref).claim moment args copied)) := by
      have hindex1 : s1.Indexed := hindex.updateStep rfl rfl
      refine (joinRunning_spec hindex1 hcopied1).bind fun t htindex _ htsteps => ?_
      obtain ⟨u, hrun, huindex, husame, husteps⟩ := Writes.updateStep htindex ref
        (fun step => { step with timeRunning := some moment.now }) rfl rfl
      refine ⟨u, hrun, huindex, husame, fun other => ?_⟩
      rw [husteps]
      by_cases hother : other = ref
      · subst hother
        simp [htsteps, hs1, Step.claim]
      · simp [hother, htsteps, hs1]
    obtain ⟨t, hrun, htindex, htsame, htsteps⟩ := hstarted
    refine ⟨t, ?_, htindex, (sameTables_updateStep ..).trans htsame, ?_⟩
    · have hcondition : args.status = .running ∧ (s.stepAt ref).workerRunning = none := hclaimed
      simp only [claimRun, exec_get_bind, hcondition, and_self, if_true, exec_modify_bind]
      exact hrun
    · intro other
      rw [htsteps, claimStep, if_pos hclaimed, hcopied, Option.getD_some]
  · have hcondition : ¬(args.status = .running ∧ (s.stepAt ref).workerRunning = none) := hclaimed
    have hpure : Writes (Pure.pure ()) s s.stepAt := .pure hindex
    simpa only [Writes, claimRun, exec_get_bind, hcondition, if_false, claimStep, hclaimed,
      Function.update_eq_self] using hpure

/-- A claim that raises has written the owner already. -/
theorem claimRun_fails {ref : Ref} (moment : Moment) {args : AddStepArgs}
    (hfails : s.claimFails args (s.stepAt ref)) :
    ∃ error, (error = .noBatchSteps ∨ error = .missingAttribute) ∧
      (claimRun moment args ref).exec s = (.error error, s.updateStep ref fun step =>
        { step with workerRunning := some args.worker }) := by
  obtain ⟨hclaimed, hresources⟩ := hfails
  have hcondition : args.status = .running ∧ (s.stepAt ref).workerRunning = none := hclaimed
  set s1 := s.updateStep ref fun step => { step with workerRunning := some args.worker } with hs1
  rw [← claimResources_updateStep s args ref (some args.worker), ← hs1] at hresources
  have hjoin : ∃ error, (error = .noBatchSteps ∨ error = .missingAttribute) ∧
      (joinRunning args ref).exec s1 = (.error error, s1) := by
    unfold claimResources at hresources
    unfold joinRunning
    cases hid : args.batchId with
    | none => simp [hid] at hresources
    | some batchId =>
        by_cases hempty : batchId = ""
        · simp [hid, hempty] at hresources
        · simp only [hid, hempty, if_false, Option.map_eq_none_iff, batchResources]
            at hresources ⊢
          unfold copyBatchResources
          rw [exec_get_bind]
          cases hlist : s1.batchRunningSteps batchId with
          | nil => exact ⟨_, .inl rfl, rfl⟩
          | cons first rest =>
              have hmissing : (s1.stepAt first).resourcesRunning = none := by
                simpa [hlist] using hresources
              simp only [hmissing]
              exact ⟨_, .inr rfl, rfl⟩
  obtain ⟨error, hkind, hrun⟩ := hjoin
  refine ⟨error, hkind, ?_⟩
  simp only [claimRun, exec_get_bind, hcondition, and_self, if_true, exec_modify_bind]
  exact exec_bind_error hrun

/-! ## Holding the dependencies -/

/-- The placeholder of a dependency that nobody scheduled yet. -/
def placeholder (config : Config) (moment : Moment) (args : AddStepArgs) (id : StepId) : Step :=
  (Step.make config moment.now id .unknown ∅ args.priority).addStakeholder args.worker

/-- Every dependency has a row and the worker as a stakeholder. -/
structure Holds (config : Config) (moment : Moment) (args : AddStepArgs)
    (deps : List StepId) (s t : Scheduler) : Prop where
  stored : s.Stored → t.Stored
  allocated : t.Allocated
  surroundings : SameSurroundings s t
  nextRef_le : s.nextRef ≤ t.nextRef
  keeps : ∀ {id ref}, s.getStep id = some ref → t.getStep id = some ref
  fresh : ∀ {id ref}, t.getStep id = some ref → s.getStep id = some ref ∨
    (id ∈ deps ∧ s.getStep id = none ∧ s.nextRef ≤ ref ∧
      t.stepAt ref = placeholder config moment args id)
  present : ∀ id ∈ deps, ∃ ref, t.getStep id = some ref
  stepAt : ∀ ref < s.nextRef, t.stepAt ref =
    if ∃ id ∈ deps, s.getStep id = some ref then (s.stepAt ref).addStakeholder args.worker
    else s.stepAt ref

section Holds

variable {config : Config} {moment : Moment} {args : AddStepArgs}

theorem Holds.nil (hallocated : s.Allocated) : Holds config moment args [] s s where
  stored := id
  allocated := hallocated
  surroundings := ⟨rfl, rfl, rfl, rfl, rfl⟩
  nextRef_le := le_refl _
  keeps := fun h => h
  fresh := fun h => .inl h
  present := fun _ h => by cases h
  stepAt := fun ref _ => by simp

theorem holds_holdDependency (config : Config) (moment : Moment) (args : AddStepArgs)
    (hallocated : s.Allocated) (dep : StepId) :
    Holds config moment args [dep] s (s.holdDependency config moment args dep) := by
  set made := Step.make config moment.now dep .unknown ∅ args.priority with hmade
  have hid : made.id = dep := rfl
  cases hget : s.getStep dep with
  | some ref =>
      have hsame : s.setdefaultStep made = s.fileStep ref := by
        unfold setdefaultStep insertStep
        simp only [hid, hget]
      have hrow : (s.fileStep ref).getStep dep = some ref := hget
      have heq : s.holdDependency config moment args dep =
          (s.fileStep ref).updateStep ref fun step => step.addStakeholder args.worker := by
        unfold holdDependency
        simp only [← hmade, hsame, hrow]
      rw [heq]
      refine ⟨fun hstored => ?_, hallocated, ⟨rfl, rfl, rfl, rfl, rfl⟩, le_refl _,
        fun h => h, fun h => .inl h, fun id hmem => ?_, fun other _ => ?_⟩
      · rw [hstored.index.fileStep_eq (hstored.index.filed hget)]
        exact hstored.updateStep rfl rfl
      · rw [List.mem_singleton.mp hmem]
        exact ⟨ref, hget⟩
      · by_cases hother : other = ref
        · subst hother
          simp [hget]
        · have hne : ¬some ref = some other := fun h => hother (Option.some.inj h).symm
          simp [hother, hget, hne]
  | none =>
      have hfresh : s.getStep made.id = none := hget
      have hrow : (s.setdefaultStep made).getStep dep = some s.nextRef := by
        rw [getStep_setdefaultStep hfresh, if_pos hid.symm]
      have hobjects := stepAt_setdefaultStep hfresh
      have heq : s.holdDependency config moment args dep =
          (s.setdefaultStep made).updateStep s.nextRef fun step =>
            step.addStakeholder args.worker := by
        unfold holdDependency
        simp only [← hmade, hrow]
      rw [heq]
      have hnext := nextRef_setdefaultStep hfresh
      refine ⟨fun hstored => (hstored.setdefaultStep made).updateStep rfl rfl, ?_, ?_, ?_, ?_,
        ?_, ?_, ?_⟩
      · intro id ref h
        rw [getStep_updateStep, getStep_setdefaultStep hfresh] at h
        rw [nextRef_updateStep, hnext]
        split at h
        · obtain rfl := Option.some.inj h
          exact Nat.lt_succ_self _
        · exact (hallocated id ref h).trans (Nat.lt_succ_self _)
      · exact (sameSurroundings_setdefaultStep s made).trans
          (sameTables_updateStep ..).surroundings
      · rw [nextRef_updateStep, hnext]
        exact Nat.le_succ _
      · intro id ref h
        rw [getStep_updateStep, getStep_setdefaultStep hfresh, if_neg]
        · exact h
        · intro heq
          rw [heq, hfresh] at h
          cases h
      · intro id ref h
        rw [getStep_updateStep, getStep_setdefaultStep hfresh] at h
        split_ifs at h with hnew
        · obtain rfl := Option.some.inj h
          rw [hid] at hnew
          subst hnew
          refine .inr ⟨List.mem_singleton_self _, hget, le_refl _, ?_⟩
          rw [stepAt_updateStep, if_pos rfl, hobjects, if_pos rfl]
          rfl
        · exact .inl h
      · intro id hmem
        rw [List.mem_singleton.mp hmem]
        exact ⟨s.nextRef, hrow⟩
      · intro ref hlt
        have hne : ref ≠ s.nextRef := Nat.ne_of_lt hlt
        simp [hobjects, hne, hget]

theorem Holds.append {front back : List StepId} {u : Scheduler}
    (hfront : Holds config moment args front s t) (hback : Holds config moment args back t u) :
    Holds config moment args (front ++ back) s u where
  stored := fun h => hback.stored (hfront.stored h)
  allocated := hback.allocated
  surroundings := hfront.surroundings.trans hback.surroundings
  nextRef_le := hfront.nextRef_le.trans hback.nextRef_le
  keeps := fun h => hback.keeps (hfront.keeps h)
  fresh := by
    intro id ref h
    rcases hback.fresh h with hold | ⟨hmem, hnone, hle, hstep⟩
    · rcases hfront.fresh hold with hold' | ⟨hmem, hnone, hle, hstep⟩
      · exact .inl hold'
      · refine .inr ⟨List.mem_append_left _ hmem, hnone, hle, ?_⟩
        rw [hback.stepAt ref (hfront.allocated _ _ hold), hstep]
        split
        · exact Step.addStakeholder_twice ..
        · rfl
    · refine .inr ⟨List.mem_append_right _ hmem, ?_, hfront.nextRef_le.trans hle, hstep⟩
      cases hget : s.getStep id with
      | none => rfl
      | some other => rw [hfront.keeps hget] at hnone; cases hnone
  present := by
    intro id hmem
    rcases List.mem_append.mp hmem with hmem | hmem
    · obtain ⟨ref, hget⟩ := hfront.present id hmem
      exact ⟨ref, hback.keeps hget⟩
    · exact hback.present id hmem
  stepAt := by
    intro ref hlt
    have hrow : ∀ id, t.getStep id = some ref ↔ s.getStep id = some ref := by
      intro id
      refine ⟨fun h => (hfront.fresh h).elim (fun hold => hold) fun hnew => ?_, hfront.keeps⟩
      exact absurd hnew.2.2.1 (Nat.not_le.mpr hlt)
    rw [hback.stepAt ref (hlt.trans_le hfront.nextRef_le), hfront.stepAt ref hlt]
    simp only [hrow, List.mem_append, or_and_right, exists_or]
    by_cases hin : ∃ id ∈ front, s.getStep id = some ref
    · simp only [hin, true_or, if_true]
      split
      · exact Step.addStakeholder_twice ..
      · rfl
    · simp only [hin, false_or, if_false]

theorem holds_foldl (deps : List StepId) (hallocated : s.Allocated) :
    Holds config moment args deps s (deps.foldl (holdDependency config moment args) s) := by
  induction deps generalizing s with
  | nil => exact .nil hallocated
  | cons dep rest ih =>
      have hhead := holds_holdDependency config moment args hallocated dep
      exact hhead.append (ih hhead.allocated)

end Holds

end Scheduler

/-! ## The whole of an accepted request -/

namespace AddStepArgs

/-- The worker becomes a stakeholder of the step and its dependencies. -/
def holds (args : AddStepArgs) (enabled : Bool) : Bool := enabled && !args.assistant

/-- The worker becomes one that can run the step. -/
def registers (args : AddStepArgs) (enabled : Bool) : Bool :=
  args.runnable && args.status != .failed && enabled

end AddStepArgs

namespace Step

/-- What `reportStatus` does to the step itself. -/
def report (step : Step) (config : Config) (moment : Moment) (args : AddStepArgs) : Step :=
  if step.acceptsReport args then step.settle (some config) moment.now args.newStatus else step

theorem core_report (step : Step) (config : Config) (moment : Moment) (args : AddStepArgs) :
    (step.report config moment args).core = step.core.report config moment args := by
  have haccepts : step.core.acceptsReport args = step.acceptsReport args := rfl
  unfold report
  rw [haccepts]
  split
  · exact core_settle ..
  · rfl

@[simp] theorem report_plan (step : Step) (config : Config) (moment : Moment)
    (args : AddStepArgs) : (step.report config moment args).plan = step.plan := by
  unfold report
  split
  · exact settle_plan ..
  · rfl

@[simp] theorem report_stakeholders (step : Step) (config : Config) (moment : Moment)
    (args : AddStepArgs) :
    (step.report config moment args).stakeholders = step.stakeholders :=
  (congrArg Step.stakeholders (step.report_plan config moment args) :)

/-- Whether `reportStatus` passes the new status on to the members of a batch. -/
def passesOn (step : Step) (args : AddStepArgs) : Bool :=
  step.acceptsReport args && !step.ignores args.newStatus && step.releasesBatch args.newStatus

/-- What `registerWorker` does to the step. -/
def register (step : Step) (config : Config) (args : AddStepArgs) (enabled : Bool) : Step :=
  { step with
    retryPolicy := config.generateRetryPolicy args.retryPolicy
    workers := if args.registers enabled then step.workers.add args.worker else step.workers
    runnable := args.registers enabled || step.runnable }

end Step

namespace Scheduler

variable {s t : Scheduler} {config : Config} {moment : Moment} {args : AddStepArgs} {ref : Ref}

/-- The first writes of `acceptStep`. -/
def joinStep (s : Scheduler) (args : AddStepArgs) (ref : Ref) : Scheduler :=
  s.updateStep ref fun step => (step.fillPlaceholder args).joinBatch args

/-- `acceptStep` raises where the batch that the step is started for is gone. -/
def claimRaises (s : Scheduler) (args : AddStepArgs) (ref : Ref) : Prop :=
  (s.joinStep args ref).claimFails args ((s.joinStep args ref).stepAt ref)

instance (s : Scheduler) (args : AddStepArgs) (ref : Ref) :
    Decidable (s.claimRaises args ref) := by
  unfold claimRaises; infer_instance

/-- The step in front of the guard of `set_status`. -/
def openedStep (s : Scheduler) (moment : Moment) (args : AddStepArgs) (ref : Ref) : Step :=
  ((s.joinStep args ref).claimStep moment args ((s.joinStep args ref).stepAt ref)).described args

/-- The report on `ref` reaches `other` as a member of the batch of `ref`. -/
def PassesOn (s : Scheduler) (moment : Moment) (args : AddStepArgs) (ref other : Ref) : Prop :=
  (s.openedStep moment args ref).passesOn args = true ∧ s.Filed other ∧
    (s.stepAt other).status = .batchRunning ∧
    (s.stepAt other).batchId = (s.openedStep moment args ref).batchId

instance (s : Scheduler) (moment : Moment) (args : AddStepArgs) (ref other : Ref) :
    Decidable (s.PassesOn moment args ref other) := by
  unfold PassesOn; infer_instance

/-- What an accepted request does. -/
structure Accepts (config : Config) (moment : Moment) (args : AddStepArgs) (ref : Ref)
    (enabled : Bool) (s t : Scheduler) : Prop where
  stored : t.Stored
  stepBatchers : t.stepBatchers = s.stepBatchers
  resources : t.resources = s.resources
  paused : t.paused = s.paused
  saved : t.saved = s.saved
  nextRef_le : s.nextRef ≤ t.nextRef
  keeps : ∀ {id other}, s.getStep id = some other → t.getStep id = some other
  fresh : ∀ {id other}, t.getStep id = some other → s.getStep id = some other ∨
    (args.holds enabled = true ∧ id ∈ (t.stepAt ref).deps ∧ s.getStep id = none ∧
      s.nextRef ≤ other ∧ (t.stepAt other).core = (placeholder config moment args id).core ∧
      (t.stepAt other).stakeholders = {args.worker})
  present : args.holds enabled = true → ∀ id ∈ (t.stepAt ref).deps, ∃ other,
    t.getStep id = some other
  target : (t.stepAt ref).core =
    ((((s.openedStep moment args ref).report config moment args).declare moment args).register
      config args enabled).core
  other : ∀ other < s.nextRef, other ≠ ref → (t.stepAt other).core =
    if s.PassesOn moment args ref other then
      ((s.stepAt other).settle (some config) moment.now args.newStatus).withoutBatch.core
    else (s.stepAt other).core
  stakeholders : ∀ other < s.nextRef, (t.stepAt other).stakeholders =
    if args.holds enabled = true ∧ (other = ref ∨
        ∃ id ∈ (t.stepAt ref).deps.elems, s.getStep id = some other) then
      insert args.worker (s.stepAt other).stakeholders
    else (s.stepAt other).stakeholders
  activeWorkers : t.activeWorkers =
    if args.registers enabled then
      s.activeWorkers.set args.worker
        { s.workerAt args.worker with
          steps := ((s.workerAt args.worker).steps.add ref).rehash moment.refOrder }
    else s.activeWorkers

theorem workerRunning_joinStep (s : Scheduler) (args : AddStepArgs) (ref other : Ref) :
    ((s.joinStep args ref).stepAt other).workerRunning = (s.stepAt other).workerRunning := by
  have hjoin : ∀ step : Step,
      ((step.fillPlaceholder args).joinBatch args).workerRunning = step.workerRunning :=
    fun _ => rfl
  rw [joinStep, stepAt_updateStep]
  split
  · exact hjoin _
  · rfl

theorem Stored.joinStep (hstored : s.Stored) (args : AddStepArgs) (ref : Ref) :
    (s.joinStep args ref).Stored := hstored.updateStep rfl rfl

/-- The paragraphs in front of the guard. -/
private theorem openStep_spec (moment : Moment) (hstored : s.Stored)
    (hclaim : ¬s.claimRaises args ref) :
    ∃ t, (claimRun moment args ref).exec (s.joinStep args ref) = (.ok (), t) ∧
      (t.describeStep args ref).Stored ∧ SameTables s (t.describeStep args ref) ∧
      ((t.describeStep args ref).stepAt ref).core = (s.openedStep moment args ref).core ∧
      (∀ other, other ≠ ref →
        ((t.describeStep args ref).stepAt other).core = (s.stepAt other).core) ∧
      (∀ other, ((t.describeStep args ref).stepAt other).stakeholders =
        (s.stepAt other).stakeholders) ∧
      ∀ other, ((t.describeStep args ref).stepAt other).priority = (s.stepAt other).priority := by
  have hjoined := hstored.joinStep args ref
  obtain ⟨t, hrun, htindex, htsame, htsteps⟩ :=
    claimRun_spec hjoined.index moment hclaim
  have hdescribes := describes_describeStep t args ref
  have htstored : t.Stored := hjoined.of_same htindex htsame
  refine ⟨t, hrun, hdescribes.stored (htstored.updateStep rfl rfl), ?_, ?_, ?_, ?_, ?_⟩
  · have hjoin : SameTables s (s.joinStep args ref) := sameTables_updateStep ..
    exact ((hjoin.trans htsame).trans (sameTables_updateStep ..)).trans hdescribes.same
  · rw [hdescribes.core, stepAt_updateStep, if_pos rfl, htsteps, Function.update_self]
    rfl
  · intro other hother
    rw [hdescribes.core, stepAt_updateStep, if_neg hother, htsteps,
      Function.update_of_ne hother, joinStep, stepAt_updateStep, if_neg hother]
  · intro other
    rw [hdescribes.stakeholders, stepAt_updateStep]
    by_cases hother : other = ref
    · subst hother
      rw [if_pos rfl]
      simp only [Step.described, htsteps, Function.update_self, claimStep, Step.claim]
      split <;> simp [joinStep, Step.joinBatch, Step.fillPlaceholder]
    · rw [if_neg hother, htsteps, Function.update_of_ne hother, joinStep, stepAt_updateStep,
        if_neg hother]
  · intro other
    rw [priority_describeStep, htsteps]
    by_cases hother : other = ref
    · subst hother
      simp only [Function.update_self, claimStep, Step.claim]
      split <;> simp [joinStep, Step.joinBatch, Step.fillPlaceholder]
    · rw [Function.update_of_ne hother, joinStep, stepAt_updateStep, if_neg hother]

/-- The guarded call of `set_status`. -/
theorem reportStatus_spec (config : Config) (moment : Moment) (args : AddStepArgs)
    (hindex : s.Indexed) (hfiled : s.Filed ref) :
    Writes (reportStatus config moment args ref) s fun other =>
      if other = ref then (s.stepAt ref).report config moment args
      else if (s.stepAt ref).passesOn args = true ∧ s.Filed other ∧
          (s.stepAt other).status = .batchRunning ∧
          (s.stepAt other).batchId = (s.stepAt ref).batchId then
        ((s.stepAt other).settle (some config) moment.now args.newStatus).withoutBatch
      else s.stepAt other := by
  by_cases haccepts : (s.stepAt ref).acceptsReport args = true
  · obtain ⟨t, hrun, htindex, htsame, htsteps⟩ :=
      setStatus_spec hindex hfiled moment.now args.newStatus (some config) (by simp)
    refine ⟨t, ?_, htindex, htsame, fun other => ?_⟩
    · simpa only [reportStatus, exec_get_bind, haccepts, if_true] using hrun
    · rw [htsteps, settled]
      by_cases hother : other = ref
      · simp only [hother, if_true, Step.report, haccepts]
      · simp only [hother, if_false, Releases, Step.passesOn, haccepts, Bool.true_and,
          Bool.and_eq_true, Bool.not_eq_true', and_assoc]
  · refine ⟨s, ?_, hindex, .refl s, fun other => ?_⟩
    · simp only [reportStatus, exec_get_bind, haccepts]
      rfl
    · by_cases hother : other = ref
      · simp [hother, Step.report, haccepts]
      · simp [hother, Step.passesOn, haccepts]

theorem sameTables_updateWorkerAt_other (s : Scheduler) (worker : WorkerId)
    (change : Worker → Worker) (other : Ref) :
    (s.updateWorkerAt worker change).stepAt other = s.stepAt other := rfl

/-- `registerWorker` on the steps. -/
theorem stepAt_registerWorker (config : Config) (moment : Moment) (args : AddStepArgs) (ref : Ref)
  (s : Scheduler) (enabled : Bool) (other : Ref) :
    (s.registerWorker config moment args ref enabled).stepAt other =
      if other = ref then (s.stepAt ref).register config args enabled else s.stepAt other := by
  unfold registerWorker
  dsimp only
  by_cases hregisters : args.registers enabled = true
  · have hcondition : (args.runnable && args.status != .failed && enabled) = true := hregisters
    rw [if_pos hcondition, stepAt_updateStep, sameTables_updateWorkerAt_other]
    by_cases hother : other = ref
    · subst hother
      simp [Step.register, hregisters]
    · simp [hother]
  · have hcondition : ¬(args.runnable && args.status != .failed && enabled) = true := hregisters
    rw [if_neg hcondition]
    by_cases hother : other = ref
    · subst hother
      simp [Step.register, hregisters]
    · simp [hother]

theorem activeWorkers_registerWorker (s : Scheduler) (enabled : Bool) :
    (s.registerWorker config moment args ref enabled).activeWorkers =
      if args.registers enabled then
        s.activeWorkers.set args.worker
          { s.workerAt args.worker with
            steps := ((s.workerAt args.worker).steps.add ref).rehash moment.refOrder }
      else s.activeWorkers := by
  unfold registerWorker AddStepArgs.registers
  dsimp only
  split <;> rfl

/-- The tables that `registerWorker` leaves alone. -/
private theorem others_registerWorker (config : Config) (moment : Moment) (args : AddStepArgs)
  (ref : Ref) (s : Scheduler) (enabled : Bool) :
    let t := s.registerWorker config moment args ref enabled
    t.steps = s.steps ∧ t.statusSteps = s.statusSteps ∧ t.nextRef = s.nextRef ∧
      t.stepBatchers = s.stepBatchers ∧ t.resources = s.resources ∧ t.paused = s.paused ∧
      t.saved = s.saved := by
  unfold registerWorker
  dsimp only
  split <;> exact ⟨rfl, rfl, rfl, rfl, rfl, rfl, rfl⟩

/-- `addStakeholders`: the step gets the worker as a stakeholder, and so do its
dependencies, which have rows afterwards. -/
theorem addStakeholders_spec (config : Config) (moment : Moment) (args : AddStepArgs) (ref : Ref)
    (hallocated : s.Allocated) (enabled : Bool) :
    Holds config moment args
      (if args.holds enabled = true then (s.stepAt ref).deps.elems else [])
      (if args.holds enabled = true then
        s.updateStep ref fun step => step.addStakeholder args.worker else s)
      (s.addStakeholders config moment args ref enabled) := by
  unfold addStakeholders
  by_cases hholds : args.holds enabled = true
  · have hcondition : (enabled && !args.assistant) = true := hholds
    have hdeps : ((s.updateStep ref fun step => step.addStakeholder args.worker).stepAt
        ref).deps = (s.stepAt ref).deps := by simp [Step.addStakeholder]
    rw [if_pos hholds, if_pos hholds, if_pos hcondition]
    dsimp only
    rw [hdeps]
    exact holds_foldl _ hallocated
  · have hcondition : ¬(enabled && !args.assistant) = true := hholds
    rw [if_neg hholds, if_neg hholds, if_neg hcondition]
    exact .nil hallocated

/-- `acceptStep` up to the declarations: the report on the step, what it passes on
to the members of its batch, and no other lasting change. -/
structure Declares (config : Config) (moment : Moment) (args : AddStepArgs) (ref : Ref)
    (s t : Scheduler) : Prop where
  stored : t.Stored
  same : SameTables s t
  target : (t.stepAt ref).core =
    (((s.openedStep moment args ref).report config moment args).declare moment args).core
  other : ∀ other, other ≠ ref → (t.stepAt other).core =
    if s.PassesOn moment args ref other then
      ((s.stepAt other).settle (some config) moment.now args.newStatus).withoutBatch.core
    else (s.stepAt other).core
  stakeholders : ∀ other, (t.stepAt other).stakeholders = (s.stepAt other).stakeholders
  priority : ∀ other, (t.stepAt other).priority = (s.stepAt other).priority

private theorem declareStep_spec (config : Config) (moment : Moment) (hstored : s.Stored)
    (hfiled : s.Filed ref)
    (hclaim : ¬s.claimRaises args ref) :
    ∃ t u, (claimRun moment args ref).exec (s.joinStep args ref) = (.ok (), t) ∧
      (reportStatus config moment args ref).exec (t.describeStep args ref) = (.ok (), u) ∧
      Declares config moment args ref s (u.updateStep ref fun step =>
        step.declare moment args) := by
  obtain ⟨t, hclaimed, hstored3, hsame3, htarget3, hother3, hstake3, hrank3⟩ :=
    openStep_spec moment hstored hclaim
  set t3 := t.describeStep args ref with ht3
  have hid3 : (t3.stepAt ref).id = (s.stepAt ref).id := by
    have hid : (t3.stepAt ref).id = (s.openedStep moment args ref).id :=
      (congrArg Step.id htarget3 :)
    rw [hid]
    simp only [openedStep, Step.described, claimStep, Step.claim]
    split <;> simp [joinStep, Step.joinBatch, Step.fillPlaceholder]
  have hfiled3 : ∀ other, t3.Filed other ↔ s.Filed other := by
    intro other
    unfold Filed
    rw [hsame3.getStep]
    by_cases hother : other = ref
    · rw [hother, hid3]
    · have hid : (t3.stepAt other).id = (s.stepAt other).id :=
        (congrArg Step.id (hother3 other hother) :)
      rw [hid]
  obtain ⟨u, hreported, hindex4, hsame4, hsteps4⟩ := reportStatus_spec config moment args
    hstored3.index ((hfiled3 ref).mpr hfiled)
  beta_reduce at hsteps4
  have hstored4 : u.Stored := hstored3.of_same hindex4 hsame4
  refine ⟨t, u, hclaimed, hreported, hstored4.updateStep rfl rfl,
    (hsame3.trans hsame4).trans (sameTables_updateStep ..), ?_, ?_, ?_, ?_⟩
  · have hcore : (u.stepAt ref).core =
        ((s.openedStep moment args ref).report config moment args).core := by
      rw [hsteps4, if_pos rfl, Step.core_report, htarget3, Step.core_report]
    rw [stepAt_updateStep, if_pos rfl]
    exact congrArg (fun step => step.declare moment args) hcore
  · intro other hother
    rw [stepAt_updateStep, if_neg hother, hsteps4, if_neg hother]
    have hpasses : ((t3.stepAt ref).passesOn args = true ∧ t3.Filed other ∧
        (t3.stepAt other).status = .batchRunning ∧
        (t3.stepAt other).batchId = (t3.stepAt ref).batchId) ↔
        s.PassesOn moment args ref other := by
      have hpass : (t3.stepAt ref).passesOn args =
          (s.openedStep moment args ref).passesOn args :=
        (congrArg (fun step => Step.passesOn step args) htarget3 :)
      have hbatch : (t3.stepAt ref).batchId = (s.openedStep moment args ref).batchId :=
        (congrArg Step.batchId htarget3 :)
      have hstatus : (t3.stepAt other).status = (s.stepAt other).status :=
        (congrArg Step.status (hother3 other hother) :)
      have hbatch' : (t3.stepAt other).batchId = (s.stepAt other).batchId :=
        (congrArg Step.batchId (hother3 other hother) :)
      rw [PassesOn, hpass, hbatch, hstatus, hbatch', hfiled3]
    by_cases hon : s.PassesOn moment args ref other
    · rw [if_pos (hpasses.mpr hon), if_pos hon]
      exact Step.withoutBatch_core_congr (Step.settle_core_congr (hother3 other hother) ..)
    · rw [if_neg (hpasses.not.mpr hon), if_neg hon, hother3 other hother]
  · intro other
    have hstake4 : (u.stepAt other).stakeholders = (s.stepAt other).stakeholders := by
      rw [hsteps4]
      split_ifs with hother
      · rw [Step.report_stakeholders, hstake3, hother]
      · exact (Step.settle_stakeholders ..).trans (hstake3 other)
      · exact hstake3 other
    rw [stepAt_updateStep]
    split
    · exact hstake4
    · exact hstake4
  · intro other
    have hrank4 : (u.stepAt other).priority = (s.stepAt other).priority := by
      rw [hsteps4]
      split_ifs with hother
      · rw [hother, ← hrank3]
        exact (congrArg Step.priority (Step.report_plan ..) :)
      · rw [← hrank3]
        exact (congrArg Step.priority (Step.settle_plan ..) :)
      · exact hrank3 other
    rw [priority_updateStep (fun step : Step => (rfl : (step.declare moment args).priority =
      step.priority)) u other, hrank4]

/-- `acceptStep` fails only where the batch to start is gone.  Otherwise it declares,
holds the dependencies, passes the priority on and registers the worker. -/
theorem acceptStep_run (config : Config) (moment : Moment) (hstored : s.Stored)
    (hfiled : s.Filed ref) (hclaim : ¬s.claimRaises args ref) (enabled : Bool) :
    ∃ declared raised, (acceptStep config moment args ref enabled).exec s =
        (.ok (), raised.registerWorker config moment args ref enabled) ∧
      Declares config moment args ref s declared ∧
      Carries (max args.priority ((declared.addStakeholders config moment args ref
        enabled).stepAt ref).priority) (declared.addStakeholders config moment args ref enabled)
        raised ∧
      (raised.stepAt ref).priority = max args.priority ((declared.addStakeholders config moment
        args ref enabled).stepAt ref).priority ∧
      raised.Reaches (raised.stepAt ref).priority ref := by
  obtain ⟨t2, t4, hclaimed, hreported, hdeclares⟩ :=
    declareStep_spec config moment hstored hfiled hclaim
  set declared := t4.updateStep ref fun step => step.declare moment args with hdeclared
  obtain ⟨raised, hraised, hcarries, hvalue, hreaches⟩ := updatePriority_carries
    (declared.addStakeholders config moment args ref enabled) args.priority ref
  refine ⟨declared, raised, ?_, hdeclares, hcarries, hvalue, hvalue ▸ hreaches⟩
  unfold acceptStep
  rw [exec_modify_bind]
  refine (exec_bind_ok hclaimed).trans ?_
  rw [exec_modify_bind]
  refine (exec_bind_ok hreported).trans ?_
  rw [exec_modify_bind, exec_modify_bind]
  exact exec_bind_ok hraised

/-- What an accepted request does. -/
theorem acceptStep_spec (config : Config) (moment : Moment) (hstored : s.Stored)
    (hfiled : s.Filed ref)
    (hclaim : ¬s.claimRaises args ref) (enabled : Bool) :
    ∃ t, (acceptStep config moment args ref enabled).exec s = (.ok (), t) ∧
      Accepts config moment args ref enabled s t := by
  obtain ⟨t5, t7, hrun, ⟨hstored5, hsame5, htarget5, hother5, hstake5, -⟩, hcarries, -⟩ :=
    acceptStep_run config moment hstored hfiled hclaim enabled
  have hholds := addStakeholders_spec config moment args ref hstored5.rows_allocated enabled
  set base := if args.holds enabled = true then
    t5.updateStep ref fun step => step.addStakeholder args.worker else t5 with hbase
  set t6 := t5.addStakeholders config moment args ref enabled with ht6
  have hraises : Raises t6 t7 := hcarries.raises
  refine ⟨_, hrun, ?_⟩
  set t8 := t7.registerWorker config moment args ref enabled with ht8
  obtain ⟨hsteps8, hbuckets8, hnext8, hbatchers8, hresources8, hpaused8, hsaved8⟩ :=
    others_registerWorker config moment args ref t7 enabled
  rw [← ht8] at hsteps8 hbuckets8 hnext8 hbatchers8 hresources8 hpaused8 hsaved8
  have hstep8 := stepAt_registerWorker config moment args ref t7 enabled
  rw [← ht8] at hstep8
  -- the tables, through the holding of the dependencies
  have hbaseStored : base.Stored := by
    rw [hbase]
    split
    · exact hstored5.updateStep rfl rfl
    · exact hstored5
  have hbaseSame : SameTables s base := by
    rw [hbase]
    split
    · exact hsame5.trans (sameTables_updateStep ..)
    · exact hsame5
  have hget8 : ∀ id, t8.getStep id = t6.getStep id := by
    intro id
    rw [Scheduler.getStep, hsteps8]
    exact hraises.same.getStep id
  have hnext : t8.nextRef = t6.nextRef := hnext8.trans hraises.same.nextRef
  have hlt : ∀ {other}, other < s.nextRef → other < base.nextRef := fun h => by
    rw [hbaseSame.nextRef]
    exact h
  -- the objects
  have hbaseCore : ∀ other, (base.stepAt other).core = (t5.stepAt other).core := by
    intro other
    rw [hbase]
    split
    · rw [stepAt_updateStep]
      split <;> rfl
    · rfl
  have hcore7 : ∀ other < s.nextRef, (t7.stepAt other).core = (t5.stepAt other).core := by
    intro other hother
    rw [hraises.describes.core, hholds.stepAt other (hlt hother), ← hbaseCore]
    simp only [apply_ite Step.core, Step.core_addStakeholder, ite_self]
  have hrefLt : ref < s.nextRef := hstored.filed_lt hfiled
  have hcore8 : ∀ other, other ≠ ref → (t8.stepAt other).core = (t7.stepAt other).core := by
    intro other hother
    rw [hstep8, if_neg hother]
  have htarget8 : (t8.stepAt ref).core =
      (((((s.openedStep moment args ref).report config moment args).declare moment args)).register
        config args enabled).core := by
    rw [hstep8, if_pos rfl]
    exact congrArg (fun step => step.register config args enabled)
      ((hcore7 ref hrefLt).trans htarget5)
  have hdeps : (t8.stepAt ref).deps = (t5.stepAt ref).deps := by
    rw [hstep8, if_pos rfl]
    exact (congrArg Step.deps (hcore7 ref hrefLt) :)
  have hstake8 : ∀ other, (t8.stepAt other).stakeholders = (t6.stepAt other).stakeholders := by
    intro other
    rw [hstep8, ← hraises.describes.stakeholders]
    split
    · rename_i hother
      rw [hother]
      rfl
    · rfl
  have hstored8 : t8.Stored := by
    refine (hraises.describes.stored (hholds.stored hbaseStored)).congr hsteps8 hbuckets8 hnext8 ?_
      ?_
    · intro other
      rw [hstep8]
      split
      · rename_i hother
        rw [hother]
        rfl
      · rfl
    · intro other
      rw [hstep8]
      split
      · rename_i hother
        rw [hother]
        rfl
      · rfl
  refine ⟨hstored8, ?_, ?_, ?_, ?_, ?_, ?_, ?_, ?_, htarget8, ?_, ?_, ?_⟩
  · rw [hbatchers8, hraises.same.stepBatchers, hholds.surroundings.stepBatchers,
      hbaseSame.stepBatchers]
  · rw [hresources8, hraises.same.resources, hholds.surroundings.resources,
      hbaseSame.resources]
  · rw [hpaused8, hraises.same.paused, hholds.surroundings.paused, hbaseSame.paused]
  · rw [hsaved8, hraises.same.saved, hholds.surroundings.saved, hbaseSame.saved]
  · rw [hnext, ← hbaseSame.nextRef]
    exact hholds.nextRef_le
  · intro id other hget
    rw [hget8]
    exact hholds.keeps (by rw [hbaseSame.getStep]; exact hget)
  · intro id other hget
    rw [hget8] at hget
    rcases hholds.fresh hget with hold | ⟨hmem, hnone, hle, hstep⟩
    · rw [hbaseSame.getStep] at hold
      exact .inl hold
    · rw [hbaseSame.getStep] at hnone
      rw [hbaseSame.nextRef] at hle
      have hne : other ≠ ref := fun heq =>
        absurd (heq ▸ hrefLt) (Nat.not_lt.mpr hle)
      by_cases hcondition : args.holds enabled = true
      · rw [if_pos hcondition] at hmem
        refine .inr ⟨hcondition, by rw [hdeps]; exact hmem, hnone, hle, ?_, ?_⟩
        · rw [hcore8 other hne, hraises.describes.core, hstep]
        · rw [hstake8, hstep]
          simp [placeholder, Step.addStakeholder, Step.make]
      · rw [if_neg hcondition] at hmem
        cases hmem
  · intro hcondition id hmem
    rw [hdeps] at hmem
    obtain ⟨other, hget⟩ := hholds.present id (by rw [if_pos hcondition]; exact hmem)
    exact ⟨other, by rw [hget8]; exact hget⟩
  · intro other hother hne
    rw [hcore8 other hne, hcore7 other hother, hother5 other hne]
  · intro other hother
    rw [hstake8, hholds.stepAt other (hlt hother), hdeps]
    by_cases hcondition : args.holds enabled = true
    · have hbaseStake : (base.stepAt other).stakeholders =
          if other = ref then insert args.worker (s.stepAt other).stakeholders
          else (s.stepAt other).stakeholders := by
        rw [hbase, if_pos hcondition, stepAt_updateStep, ← hstake5]
        split <;> rfl
      simp only [hcondition, if_true, true_and, hbaseSame.getStep]
      by_cases hdep : ∃ id ∈ (t5.stepAt ref).deps.elems, s.getStep id = some other
      · simp only [hdep, if_true, or_true, Step.addStakeholder, hbaseStake]
        split <;> simp
      · simp only [hdep, if_false, or_false, hbaseStake]
    · have hbaseStake : (base.stepAt other).stakeholders = (s.stepAt other).stakeholders := by
        rw [hbase, if_neg hcondition]
        exact hstake5 other
      simp [hcondition, hbaseStake]
  · have hworkers7 : t7.activeWorkers = s.activeWorkers := by
      rw [hraises.same.activeWorkers, hholds.surroundings.activeWorkers,
        hbaseSame.activeWorkers]
    have hworker7 : t7.workerAt args.worker = s.workerAt args.worker := by
      simp only [Scheduler.workerAt, hworkers7]
    rw [ht8, activeWorkers_registerWorker, hworkers7, hworker7]

/-! ## The whole of `add_step` -/

/-- What `add_step` may come to, in the state that `receiveStep` leaves. -/
inductive AddsStep (config : Config) (moment : Moment) (args : AddStepArgs)
    (received : Scheduler) : Except Raised Unit → Scheduler → Prop where
  /-- There is no such step, or the claim is dropped. -/
  | dropped (hdropped : ∀ ref, received.getStep args.stepId = some ref →
      (received.stepAt ref).dropsClaim config moment args
        (received.workerAt args.worker).enabled = true) :
      AddsStep config moment args received (.ok ()) received
  | accepted {ref : Ref} {t : Scheduler} (hget : received.getStep args.stepId = some ref)
      (hclaim : (received.stepAt ref).dropsClaim config moment args
        (received.workerAt args.worker).enabled = false)
      (hstarts : ¬received.claimRaises args ref)
      (haccepts : Accepts config moment args ref (received.workerAt args.worker).enabled
        received t) :
      AddsStep config moment args received (.ok ()) t
  /-- The batch to start is gone: the owner has been written already. -/
  | failed {ref : Ref} {error : Raised} (hget : received.getStep args.stepId = some ref)
      (hclaim : (received.stepAt ref).dropsClaim config moment args
        (received.workerAt args.worker).enabled = false)
      (hraises : received.claimRaises args ref)
      (herror : error = .noBatchSteps ∨ error = .missingAttribute) :
      AddsStep config moment args received (.error error)
        ((received.joinStep args ref).updateStep ref fun step =>
          { step with workerRunning := some args.worker })

theorem receiveStep_stored (hstored : s.Stored) (config : Config) (moment : Moment)
    (args : AddStepArgs) : (s.receiveStep config moment args).Stored := by
  have hgreets := greets_updateWorker s moment.now args.worker false
  unfold receiveStep
  dsimp only
  split
  · exact (hgreets.stored hstored).setdefaultStep _
  · exact hgreets.stored hstored

/-- A request that is neither ignored nor dropped. -/
theorem addStep_exec (config : Config) (moment : Moment) (args : AddStepArgs) (s : Scheduler)
    {ref : Ref} (hget : (s.receiveStep config moment args).getStep args.stepId = some ref)
    (hclaim : ((s.receiveStep config moment args).stepAt ref).dropsClaim config moment args
      ((s.receiveStep config moment args).workerAt args.worker).enabled = false) :
    (addStep config moment args).exec s =
      (acceptStep config moment args ref
        ((s.receiveStep config moment args).workerAt args.worker).enabled).exec
        (s.receiveStep config moment args) := by
  unfold addStep
  refine (exec_modify_bind ..).trans ((exec_get_bind ..).trans ?_)
  dsimp only
  rw [hget]
  dsimp only
  rw [hclaim, if_neg Bool.false_ne_true]

/-- A request about no step of the table, or with a claim that is dropped. -/
theorem addStep_exec_dropped (config : Config) (moment : Moment) (args : AddStepArgs)
    (s : Scheduler)
    (hdrops : ∀ ref, (s.receiveStep config moment args).getStep args.stepId = some ref →
      ((s.receiveStep config moment args).stepAt ref).dropsClaim config moment args
        ((s.receiveStep config moment args).workerAt args.worker).enabled = true) :
    (addStep config moment args).exec s = (.ok (), s.receiveStep config moment args) := by
  unfold addStep
  refine (exec_modify_bind ..).trans ((exec_get_bind ..).trans ?_)
  dsimp only
  cases hget : (s.receiveStep config moment args).getStep args.stepId with
  | none => rfl
  | some ref =>
      dsimp only
      rw [hdrops ref hget, if_pos rfl]
      rfl

theorem addStep_spec (config : Config) (moment : Moment) (args : AddStepArgs) (hstored : s.Stored) :
    ∃ outcome t, (addStep config moment args).exec s = (outcome, t) ∧
      AddsStep config moment args (s.receiveStep config moment args) outcome t := by
  have haccept := @addStep_exec config moment args s
  have hdropped := addStep_exec_dropped config moment args s
  set received := s.receiveStep config moment args with hreceived
  have hrstored : received.Stored := receiveStep_stored hstored config moment args
  by_cases hdrops : ∀ ref, received.getStep args.stepId = some ref →
      (received.stepAt ref).dropsClaim config moment args
        (received.workerAt args.worker).enabled = true
  · exact ⟨_, _, hdropped hdrops, .dropped hdrops⟩
  · push Not at hdrops
    obtain ⟨ref, hget, hkept⟩ := hdrops
    have hclaim := Bool.eq_false_iff.mpr hkept
    have hfiled := hrstored.index.filed hget
    rw [haccept hget hclaim]
    by_cases hraises : received.claimRaises args ref
    · obtain ⟨error, herror, hrun⟩ := claimRun_fails moment hraises
      refine ⟨_, _, ?_, .failed hget hclaim hraises herror⟩
      unfold acceptStep
      rw [exec_modify_bind]
      exact exec_bind_error hrun
    · obtain ⟨t, hrun, haccepts⟩ := acceptStep_spec config moment hrstored hfiled hraises
        (received.workerAt args.worker).enabled
      exact ⟨_, t, hrun, .accepted hget hclaim hraises haccepts⟩

end Scheduler

end Trun
