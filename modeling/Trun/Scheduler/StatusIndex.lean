import Trun.Scheduler.Service

/-!
# The index by status

`_status_steps` has to list every step of `_steps` once, under its id, in the
bucket of its status.  In such a state `set_status` cannot fail on a step of the
table, and `setStatus_spec` says all it does: `Step.settle` on the step itself,
the same on the running members of its batch, and nothing else.
-/

namespace Trun

open Program

namespace Scheduler

/-- The step table and its index by status agree. -/
structure Indexed (s : Scheduler) : Prop where
  step_id : ∀ {id ref}, s.getStep id = some ref → (s.stepAt ref).id = id
  bucket_iff : ∀ status id ref, (s.bucket status).get? id = some ref ↔
    s.getStep id = some ref ∧ (s.stepAt ref).status = status

/-- The object is the one the step table holds under its id. -/
def Filed (s : Scheduler) (ref : Ref) : Prop := s.getStep (s.stepAt ref).id = some ref

instance (s : Scheduler) (ref : Ref) : Decidable (s.Filed ref) := by
  unfold Filed; infer_instance

/-- Everything but the step objects and their index by status is the same. -/
structure SameTables (s t : Scheduler) : Prop where
  nextRef : t.nextRef = s.nextRef
  steps : t.steps = s.steps
  activeWorkers : t.activeWorkers = s.activeWorkers
  stepBatchers : t.stepBatchers = s.stepBatchers
  resources : t.resources = s.resources
  paused : t.paused = s.paused
  saved : t.saved = s.saved

theorem SameTables.refl (s : Scheduler) : SameTables s s := ⟨rfl, rfl, rfl, rfl, rfl, rfl, rfl⟩

theorem SameTables.trans {s t u : Scheduler} (hst : SameTables s t) (htu : SameTables t u) :
    SameTables s u where
  nextRef := htu.nextRef.trans hst.nextRef
  steps := htu.steps.trans hst.steps
  activeWorkers := htu.activeWorkers.trans hst.activeWorkers
  stepBatchers := htu.stepBatchers.trans hst.stepBatchers
  resources := htu.resources.trans hst.resources
  paused := htu.paused.trans hst.paused
  saved := htu.saved.trans hst.saved

theorem SameTables.getStep {s t : Scheduler} (hsame : SameTables s t) (id : StepId) :
    t.getStep id = s.getStep id := by
  simp only [Scheduler.getStep, hsame.steps]

theorem SameTables.workerAt {s t : Scheduler} (hsame : SameTables s t) (id : WorkerId) :
    t.workerAt id = s.workerAt id := by
  simp only [Scheduler.workerAt, hsame.activeWorkers]

theorem sameTables_updateStep (s : Scheduler) (ref : Ref) (change : Step → Step) :
    SameTables s (s.updateStep ref change) := ⟨rfl, rfl, rfl, rfl, rfl, rfl, rfl⟩

theorem Indexed.filed {s : Scheduler} (hindex : s.Indexed) {id : StepId} {ref : Ref}
    (hget : s.getStep id = some ref) : s.Filed ref := by
  rwa [Filed, hindex.step_id hget]

theorem Indexed.get_bucket {s : Scheduler} (hindex : s.Indexed) {ref : Ref}
    (hfiled : s.Filed ref) :
    (s.bucket (s.stepAt ref).status).get? (s.stepAt ref).id = some ref :=
  (hindex.bucket_iff _ _ _).mpr ⟨hfiled, rfl⟩

/-- Two objects of the table with one id are one object. -/
theorem Filed.inj {s : Scheduler} {left right : Ref} (hleft : s.Filed left)
    (hright : s.Filed right) (hid : (s.stepAt left).id = (s.stepAt right).id) :
    left = right := by
  unfold Filed at hleft hright
  rw [hid, hright] at hleft
  exact (Option.some.inj hleft).symm

theorem Indexed.mem_activeSteps {s : Scheduler} (hindex : s.Indexed) {ref : Ref} :
    ref ∈ s.activeSteps ↔ s.Filed ref := by
  rw [Scheduler.mem_activeSteps]
  exact ⟨fun ⟨_, hget⟩ => hindex.filed hget, fun hfiled => ⟨_, hfiled⟩⟩

theorem Indexed.mem_activeStepsByStatus {s : Scheduler} (hindex : s.Indexed) {ref : Ref}
    {statuses : List Status} :
    ref ∈ s.activeStepsByStatus statuses ↔
      s.Filed ref ∧ (s.stepAt ref).status ∈ statuses := by
  rw [Scheduler.mem_activeStepsByStatus]
  constructor
  · rintro ⟨status, hstatus, id, hget⟩
    obtain ⟨hstep, rfl⟩ := (hindex.bucket_iff _ _ _).mp hget
    exact ⟨hindex.filed hstep, hstatus⟩
  · rintro ⟨hfiled, hstatus⟩
    exact ⟨_, hstatus, _, hindex.get_bucket hfiled⟩

theorem Indexed.mem_batchRunningSteps {s : Scheduler} (hindex : s.Indexed) {ref : Ref}
    {batchId : BatchId} :
    ref ∈ s.batchRunningSteps batchId ↔
      s.Filed ref ∧ (s.stepAt ref).status = .batchRunning ∧
        (s.stepAt ref).batchId = some batchId := by
  simp only [batchRunningSteps, List.mem_filter, hindex.mem_activeStepsByStatus,
    List.mem_singleton, decide_eq_true_eq, and_assoc]

theorem Indexed.nodup_bucket {s : Scheduler} (hindex : s.Indexed) (status : Status) :
    (s.bucket status).values.Nodup := by
  refine Dict.nodup_values _ fun left right ref hleft hright => ?_
  rw [hindex.bucket_iff] at hleft hright
  rw [← hindex.step_id hleft.1, ← hindex.step_id hright.1]

/-- Different buckets share no step. -/
theorem Indexed.nodup_activeStepsByStatus {s : Scheduler} (hindex : s.Indexed)
    {statuses : List Status} (hnodup : statuses.Nodup) :
    (s.activeStepsByStatus statuses).Nodup := by
  refine List.nodup_flatMap.mpr ⟨fun status _ => hindex.nodup_bucket status, ?_⟩
  refine hnodup.imp fun {left right} hne ref hleft hright => hne ?_
  rw [Dict.mem_values_iff] at hleft hright
  obtain ⟨_, hleft⟩ := hleft
  obtain ⟨_, hright⟩ := hright
  rw [← ((hindex.bucket_iff _ _ _).mp hleft).2, ← ((hindex.bucket_iff _ _ _).mp hright).2]

theorem Indexed.nodup_batchRunningSteps {s : Scheduler} (hindex : s.Indexed)
    (batchId : BatchId) : (s.batchRunningSteps batchId).Nodup := by
  have hbucket := hindex.nodup_bucket .batchRunning
  refine List.Nodup.filter _ ?_
  simpa [activeStepsByStatus] using hbucket

/-! ## Field writes -/

/-- A field write that keeps id and status leaves the index exact. -/
theorem Indexed.updateStep {s : Scheduler} (hindex : s.Indexed) {ref : Ref}
    {change : Step → Step} (hid : (change (s.stepAt ref)).id = (s.stepAt ref).id)
    (hstatus : (change (s.stepAt ref)).status = (s.stepAt ref).status) :
    (s.updateStep ref change).Indexed where
  step_id := by
    intro id other hget
    rw [getStep_updateStep] at hget
    rw [stepAt_updateStep]
    split
    · rename_i heq
      subst heq
      rw [hid, hindex.step_id hget]
    · exact hindex.step_id hget
  bucket_iff := by
    intro status id other
    rw [bucket_updateStep, hindex.bucket_iff, getStep_updateStep, stepAt_updateStep]
    split
    · rename_i heq
      subst heq
      rw [hstatus]
    · rfl

theorem filed_updateStep {s : Scheduler} {ref other : Ref} {change : Step → Step}
    (hid : (change (s.stepAt ref)).id = (s.stepAt ref).id) :
    (s.updateStep ref change).Filed other ↔ s.Filed other := by
  unfold Filed
  rw [getStep_updateStep, stepAt_updateStep]
  split
  · rename_i heq
    subst heq
    rw [hid]
  · rfl

/-! ## Moving a step to another bucket -/

@[simp] theorem getStep_refile (s : Scheduler) (now : Time) (ref : Ref) (newStatus : Status)
    (id : StepId) : (s.refile now ref newStatus).getStep id = s.getStep id := rfl

@[simp] theorem stepAt_refile (s : Scheduler) (now : Time) (ref : Ref) (newStatus : Status)
    (other : Ref) :
    (s.refile now ref newStatus).stepAt other =
      if other = ref then { s.stepAt other with status := newStatus, updated := now }
      else s.stepAt other := by
  simp [refile, stepAt, Scheduler.updateStep]

theorem get?_bucket_refile (s : Scheduler) (now : Time) (ref : Ref)
    (newStatus status : Status) (id : StepId) :
    ((s.refile now ref newStatus).bucket status).get? id =
      if status = newStatus ∧ id = (s.stepAt ref).id then some ref
      else if status = (s.stepAt ref).status ∧ id = (s.stepAt ref).id then none
      else (s.bucket status).get? id := by
  have hpopped : (if status = (s.stepAt ref).status
        then (s.bucket status).erase (s.stepAt ref).id else s.bucket status).get? id =
      if status = (s.stepAt ref).status ∧ id = (s.stepAt ref).id then none
      else (s.bucket status).get? id := by
    by_cases hold : status = (s.stepAt ref).status
    · rw [if_pos hold, Dict.get?_erase]
      simp only [hold, true_and]
    · rw [if_neg hold]
      simp only [hold, false_and, if_false]
  simp only [refile, bucket, Scheduler.updateStep, Dict.getD_modify] at hpopped ⊢
  by_cases hnew : status = newStatus
  · rw [if_pos hnew, Dict.get?_set, hpopped]
    simp only [hnew, true_and]
  · rw [if_neg hnew, hpopped]
    simp only [hnew, false_and, if_false]

theorem sameTables_refile (s : Scheduler) (now : Time) (ref : Ref) (newStatus : Status) :
    SameTables s (s.refile now ref newStatus) := ⟨rfl, rfl, rfl, rfl, rfl, rfl, rfl⟩

theorem Indexed.refile {s : Scheduler} (hindex : s.Indexed) {ref : Ref} (hfiled : s.Filed ref)
    (now : Time) (newStatus : Status) : (s.refile now ref newStatus).Indexed where
  step_id := by
    intro id other hget
    rw [getStep_refile] at hget
    rw [stepAt_refile]
    split <;> exact hindex.step_id hget
  bucket_iff := by
    intro status id other
    rw [get?_bucket_refile, getStep_refile, stepAt_refile]
    by_cases hother : other = ref
    · -- the moved step is filed under its own id only
      subst hother
      have hown : s.getStep id = some other ↔ id = (s.stepAt other).id :=
        ⟨fun hget => (hindex.step_id hget).symm, fun heq => heq ▸ hfiled⟩
      have hbucket := hindex.bucket_iff status id other
      rw [hown] at hbucket
      rw [hown, if_pos rfl]
      by_cases hid : id = (s.stepAt other).id
      · by_cases hnew : status = newStatus
        · simp [hid, hnew]
        · by_cases hold : status = (s.stepAt other).status
          · rw [if_neg (fun h => hnew h.1), if_pos ⟨hold, hid⟩]
            exact ⟨fun h => by simp at h, fun h => absurd h.2.symm hnew⟩
          · simp only [hnew, hold, false_and, if_false, hbucket]
            exact ⟨fun h => absurd h.2.symm hold, fun h => absurd h.2.symm hnew⟩
      · simp only [hid, and_false, if_false, hbucket, false_and]
    · -- no other step has the id of the moved one
      rw [if_neg hother, ← hindex.bucket_iff status id other]
      by_cases hid : id = (s.stepAt ref).id
      · have hnone : ∀ status', (s.bucket status').get? id ≠ some other := by
          intro status' hget
          have hstep := ((hindex.bucket_iff _ _ _).mp hget).1
          rw [hid, hfiled] at hstep
          exact hother (Option.some.inj hstep).symm
        have href : some ref ≠ some other := fun h => hother (Option.some.inj h).symm
        split_ifs <;> simp [hnone, href]
      · simp only [hid, and_false, if_false]

end Scheduler

/-! ## What `set_status` does to one step -/

namespace Step

def withStatus (step : Step) (now : Time) (newStatus : Status) : Step :=
  if newStatus = step.status then step
  else { step with status := newStatus, updated := now }

/-- `set_status` forgets the batch of a combined step that stops running. -/
def leaveBatch (step : Step) (newStatus : Status) : Step :=
  if step.releasesBatch newStatus then step.withoutBatch else step

/-- The time stamps, where the step ended up `FAILED`. -/
def stampIfFailed (step : Step) (config : Option Config) (now : Time) (combined : Bool)
    (newStatus : Status) : Step :=
  match newStatus, config with
  | .failed, some config => step.stampFailure config now combined
  | _, _ => step

/-- The accounting, the new status and the time stamps. -/
def book (step : Step) (config : Option Config) (now : Time) (combined : Bool)
    (newStatus : Status) : Step :=
  (((step.account now newStatus).1.withStatus now (step.account now newStatus).2).stampIfFailed
    config now combined (step.account now newStatus).2).markEnd (step.countsFailure newStatus)

/-- All that `set_status` does to the step it is called on. -/
def settle (step : Step) (config : Option Config) (now : Time) (newStatus : Status) : Step :=
  if step.ignores newStatus then step
  else ((step.revive newStatus).leaveBatch newStatus).book config now step.removeOnFailure
    newStatus

variable (step : Step) (now : Time) (newStatus : Status)

@[simp] theorem account_id : (step.account now newStatus).1.id = step.id := by
  unfold account
  dsimp only
  split_ifs <;> rfl

@[simp] theorem account_status : (step.account now newStatus).1.status = step.status := by
  unfold account
  dsimp only
  split_ifs <;> rfl

@[simp] theorem revive_id : (step.revive newStatus).id = step.id := by
  unfold revive; split <;> rfl

@[simp] theorem revive_status : (step.revive newStatus).status = step.status := by
  unfold revive; split <;> rfl

@[simp] theorem revive_batchId : (step.revive newStatus).batchId = step.batchId := by
  unfold revive; split <;> rfl

@[simp] theorem releasesBatch_revive :
    (step.revive newStatus).releasesBatch newStatus = step.releasesBatch newStatus := by
  simp [releasesBatch]

@[simp] theorem leaveBatch_id : (step.leaveBatch newStatus).id = step.id := by
  unfold leaveBatch; split <;> rfl

@[simp] theorem leaveBatch_status : (step.leaveBatch newStatus).status = step.status := by
  unfold leaveBatch; split <;> rfl

@[simp] theorem stampFailure_id (config : Config) (combined : Bool) :
    (step.stampFailure config now combined).id = step.id := by
  unfold stampFailure; split <;> rfl

@[simp] theorem stampFailure_status (config : Config) (combined : Bool) :
    (step.stampFailure config now combined).status = step.status := by
  unfold stampFailure; split <;> rfl

@[simp] theorem markEnd_id (counted : Bool) : (step.markEnd counted).id = step.id := by
  unfold markEnd; split <;> rfl

@[simp] theorem markEnd_status (counted : Bool) :
    (step.markEnd counted).status = step.status := by
  unfold markEnd; split <;> rfl

@[simp] theorem withStatus_id : (step.withStatus now newStatus).id = step.id := by
  unfold withStatus; split <;> rfl

@[simp] theorem withStatus_status : (step.withStatus now newStatus).status = newStatus := by
  unfold withStatus
  split
  · rename_i heq
    exact heq.symm
  · rfl

/-- `account` leaves only a reported failure as one. -/
theorem account_failed (haccount : (step.account now newStatus).2 = .failed) :
    newStatus = .failed := by
  unfold account at haccount
  split_ifs at haccount <;> simp_all

end Step

/-! ## `set_status` on an exact index -/

namespace Scheduler

/-- The program runs through; afterwards the index is exact, the step objects are
as given, and the other tables are as before. -/
def Writes (program : SchedulerM Unit) (s : Scheduler) (objects : Ref → Step) : Prop :=
  ∃ t, program.exec s = (.ok (), t) ∧ t.Indexed ∧ SameTables s t ∧
    ∀ ref, t.stepAt ref = objects ref

variable {s : Scheduler}

theorem Writes.pure (hindex : s.Indexed) : Writes (pure ()) s s.stepAt :=
  ⟨s, rfl, hindex, .refl s, fun _ => rfl⟩

theorem Writes.bind {first next : SchedulerM Unit} {middle last : Ref → Step}
    (hfirst : Writes first s middle)
    (hnext : ∀ t, t.Indexed → SameTables s t → (∀ ref, t.stepAt ref = middle ref) →
      Writes next t last) :
    Writes (do first; next) s last := by
  obtain ⟨t, hrun, hindex, hsame, hsteps⟩ := hfirst
  obtain ⟨u, hrun', hindex', hsame', hsteps'⟩ := hnext t hindex hsame hsteps
  exact ⟨u, (exec_bind_ok hrun).trans hrun', hindex', hsame.trans hsame', hsteps'⟩

theorem Writes.updateStep (hindex : s.Indexed) (ref : Ref) (change : Step → Step)
    (hid : (change (s.stepAt ref)).id = (s.stepAt ref).id)
    (hstatus : (change (s.stepAt ref)).status = (s.stepAt ref).status) :
    Writes (modify fun s => s.updateStep ref change) s
      (Function.update s.stepAt ref (change (s.stepAt ref))) := by
  refine ⟨s.updateStep ref change, rfl, hindex.updateStep hid hstatus,
    sameTables_updateStep s ref change, fun other => ?_⟩
  by_cases hother : other = ref
  · subst hother
    simp
  · simp [hother]

theorem Writes.moveStatus (hindex : s.Indexed) {ref : Ref} (hfiled : s.Filed ref)
    (now : Time) (newStatus : Status) :
    Writes (moveStatus now ref newStatus) s
      (Function.update s.stepAt ref ((s.stepAt ref).withStatus now newStatus)) := by
  unfold Writes Trun.moveStatus
  rw [exec_get_bind]
  by_cases hsame : newStatus = (s.stepAt ref).status
  · simp only [hsame, if_true, exec_pure]
    refine ⟨s, rfl, hindex, .refl s, fun other => ?_⟩
    simp [Step.withStatus]
  · have hpresent : (s.bucket (s.stepAt ref).status).contains (s.stepAt ref).id = true := by
      rw [Dict.contains_iff]
      exact ⟨ref, hindex.get_bucket hfiled⟩
    simp only [hsame, hpresent, if_true, if_false, exec_modify]
    refine ⟨_, rfl, hindex.refile hfiled now newStatus,
      sameTables_refile s now ref newStatus, fun other => ?_⟩
    by_cases hother : other = ref
    · subst hother
      simp [Step.withStatus, hsame]
    · simp [hother]

/-- A loop over distinct steps whose body changes only the step it is called on. -/
theorem Writes.forM {refs : List Ref} (hindex : s.Indexed) (hnodup : refs.Nodup)
    (body : Ref → SchedulerM Unit) (settled : Ref → Step)
    (hbody : ∀ ref ∈ refs, ∀ t : Scheduler, t.Indexed → SameTables s t →
      t.stepAt ref = s.stepAt ref →
      Writes (body ref) t (Function.update t.stepAt ref (settled ref))) :
    Writes (refs.forM body) s fun ref => if ref ∈ refs then settled ref else s.stepAt ref := by
  induction refs generalizing s with
  | nil => simpa using Writes.pure hindex
  | cons first rest ih =>
      change Writes (do body first; rest.forM body) s _
      obtain ⟨hfirst, hrest⟩ := List.nodup_cons.mp hnodup
      refine (hbody first (List.mem_cons_self ..) s hindex (.refl s) rfl).bind
        fun t hindex' hsame hsteps => ?_
      have hother : ∀ ref ∈ rest, t.stepAt ref = s.stepAt ref := fun ref href => by
        have hne : ref ≠ first := fun heq => hfirst (heq ▸ href)
        rw [hsteps, Function.update_of_ne hne]
      have hloop := ih hindex' hrest fun ref href u hindex'' hsame' heq =>
        hbody ref (List.mem_cons_of_mem _ href) u hindex'' (hsame.trans hsame')
          (heq.trans (hother ref href))
      obtain ⟨u, hrun, huindex, husame, husteps⟩ := hloop
      refine ⟨u, hrun, huindex, husame, fun ref => ?_⟩
      rw [husteps]
      by_cases href : ref ∈ rest
      · simp [href]
      · by_cases heq : ref = first
        · subst heq
          simp [href, hsteps]
        · simp [href, heq, hsteps]

theorem Writes.stampFailure (hindex : s.Indexed) {ref : Ref} {step : Step}
    (hstep : s.stepAt ref = step) (now : Time) (newStatus : Status) (combined : Bool)
    {config : Option Config} (hconfig : newStatus = .failed → config ≠ none) :
    Writes (stampFailure now ref newStatus combined config) s
      (Function.update s.stepAt ref
        (step.stampIfFailed config now combined newStatus)) := by
  subst hstep
  have hpure : Writes (Pure.pure ()) s (Function.update s.stepAt ref (s.stepAt ref)) := by
    simpa using Writes.pure hindex
  cases newStatus with
  | failed =>
      cases config with
      | none => exact absurd rfl (hconfig rfl)
      | some config =>
          exact Writes.updateStep hindex _ _ (Step.stampFailure_id ..) (Step.stampFailure_status ..)
  | _ => simpa only [Trun.stampFailure, Step.stampIfFailed] using hpure

/-- `set_status` past its early returns, once the batch has been released. -/
theorem Writes.applyStatus {recur : Ref → Status → Option Config → SchedulerM Unit}
    {ref : Ref} (hfiled : s.Filed ref) (now : Time)
    {newStatus : Status} {config : Option Config} {released : Ref → Step}
    (hconfig : newStatus = .failed → config ≠ none)
    (hrelease : Writes (releaseBatch recur ref newStatus config)
      (s.updateStep ref fun step => step.revive newStatus) released)
    (hown : released ref = ((s.stepAt ref).revive newStatus).leaveBatch newStatus) :
    Writes (applyStatus recur now ref newStatus config) s
      (Function.update released ref ((((s.stepAt ref).revive newStatus).leaveBatch
        newStatus).book config now (s.stepAt ref).removeOnFailure newStatus)) := by
  unfold Trun.applyStatus
  obtain ⟨t, hrun, htindex, htsame, htsteps⟩ := hrelease
  have hstep := (htsteps ref).trans hown
  have htfiled : t.Filed ref := by
    simpa [Filed, hstep, htsame.getStep] using hfiled
  set step := ((s.stepAt ref).revive newStatus).leaveBatch newStatus
  have haccount : Writes (modify fun s : Scheduler => s.updateStep ref fun step =>
      (step.account now newStatus).1) t
      (Function.update t.stepAt ref (step.account now newStatus).1) := by
    rw [← hstep]
    exact Writes.updateStep htindex _ _ (by simp) (by simp)
  have hrest : Writes (do
      modify fun s : Scheduler => s.updateStep ref fun step => (step.account now newStatus).1
      Trun.moveStatus now ref (step.account now newStatus).2
      Trun.stampFailure now ref (step.account now newStatus).2
        (s.stepAt ref).removeOnFailure config
      modify fun s : Scheduler => s.updateStep ref fun last =>
        last.markEnd (step.countsFailure newStatus))
      t (Function.update released ref
        (step.book config now (s.stepAt ref).removeOnFailure newStatus)) := by
    refine haccount.bind fun u huindex husame husteps => ?_
    have hustep : u.stepAt ref = (step.account now newStatus).1 := by simp [husteps]
    have hufiled : u.Filed ref := by
      simpa [Filed, hustep, husame.getStep, ← hstep] using htfiled
    refine (Writes.moveStatus huindex hufiled now _).bind fun v hvindex _ hvsteps => ?_
    have hvstep : v.stepAt ref =
        (step.account now newStatus).1.withStatus now (step.account now newStatus).2 := by
      simp [hvsteps, hustep]
    refine (Writes.stampFailure hvindex hvstep now (step.account now newStatus).2
      (s.stepAt ref).removeOnFailure
      (fun hfailed => hconfig (Step.account_failed step now newStatus hfailed))).bind
        fun w hwindex _ hwsteps => ?_
    obtain ⟨x, hxrun, hxindex, hxsame, hxsteps⟩ :=
      Writes.updateStep hwindex ref (fun last => last.markEnd (step.countsFailure newStatus))
        (Step.markEnd_id ..) (Step.markEnd_status ..)
    refine ⟨x, hxrun, hxindex, hxsame, fun other => ?_⟩
    rw [hxsteps]
    by_cases hother : other = ref
    · subst hother
      simp only [Function.update_self, hwsteps, Step.book]
    · simp [hother, hwsteps, hvsteps, husteps, htsteps]
  obtain ⟨u, hrun', huindex, husame, husteps⟩ := hrest
  refine ⟨u, ?_, huindex, ((sameTables_updateStep s ref _).trans htsame).trans husame, husteps⟩
  rw [exec_get_bind, exec_modify_bind, exec_bind_ok hrun, exec_get_bind, exec_get_bind, hstep]
  exact hrun'

/-- `set_status` on a step that passes nothing on, at any recursion depth. -/
theorem Writes.setStatusUpTo (hindex : s.Indexed) {ref : Ref} (hfiled : s.Filed ref)
    (now : Time) (newStatus : Status) (config : Option Config)
    (hconfig : newStatus = .failed → config ≠ none)
    (hkeeps : (s.stepAt ref).releasesBatch newStatus = false) (depth : ℕ) :
    Writes (setStatusUpTo (depth + 1) now ref newStatus config) s
      (Function.update s.stepAt ref ((s.stepAt ref).settle config now newStatus)) := by
  have hasserted : ¬(newStatus = .failed ∧ config = none) := fun h => hconfig h.1 h.2
  by_cases hignores : (s.stepAt ref).ignores newStatus = true
  · have hpure : Writes (Pure.pure ()) s s.stepAt := .pure hindex
    simpa [Writes, Trun.setStatusUpTo, setStatusBody, hasserted, hignores, Step.settle]
      using hpure
  · have hrevive : Writes (releaseBatch (Trun.setStatusUpTo depth now) ref newStatus config)
        (s.updateStep ref fun step => step.revive newStatus)
        (Function.update s.stepAt ref ((s.stepAt ref).revive newStatus)) := by
      obtain ⟨t, hrun, hrest⟩ :=
        Writes.updateStep hindex ref (fun step => step.revive newStatus) (by simp) (by simp)
      rw [exec_modify] at hrun
      obtain rfl := (Prod.mk.inj hrun).2
      exact ⟨_, by simp [releaseBatch, hkeeps], hrest.1, .refl _, hrest.2.2⟩
    have happly := Writes.applyStatus hfiled now hconfig hrevive
      (by simp [Step.leaveBatch, hkeeps])
    simpa [Writes, Trun.setStatusUpTo, setStatusBody, hasserted, hignores, Step.settle]
      using happly

/-- `set_status` on `ref` passes the new status on to `other`. -/
def Releases (s : Scheduler) (ref : Ref) (newStatus : Status) (other : Ref) : Prop :=
  (s.stepAt ref).ignores newStatus = false ∧
    (s.stepAt ref).releasesBatch newStatus = true ∧ s.Filed other ∧
    (s.stepAt other).status = .batchRunning ∧
    (s.stepAt other).batchId = (s.stepAt ref).batchId

instance (s : Scheduler) (ref : Ref) (newStatus : Status) (other : Ref) :
    Decidable (s.Releases ref newStatus other) := by
  unfold Releases; infer_instance

/-- The step objects after `set_status`. -/
def settled (s : Scheduler) (config : Option Config) (now : Time) (ref : Ref)
    (newStatus : Status) (other : Ref) : Step :=
  if other = ref then (s.stepAt ref).settle config now newStatus
  else if s.Releases ref newStatus other then
    ((s.stepAt other).settle config now newStatus).withoutBatch
  else s.stepAt other

/-- The members of the batch all take the new status. -/
theorem Writes.releaseBatch (hindex : s.Indexed) (ref : Ref) (now : Time)
    {newStatus : Status} {config : Option Config}
    (hconfig : newStatus = .failed → config ≠ none)
    (hreleases : (s.stepAt ref).releasesBatch newStatus = true) (depth : ℕ) :
    Writes (releaseBatch (Trun.setStatusUpTo (depth + 1) now) ref newStatus config) s
      fun other =>
        if other = ref then (s.stepAt ref).withoutBatch
        else if s.Filed other ∧ (s.stepAt other).status = .batchRunning ∧
            (s.stepAt other).batchId = (s.stepAt ref).batchId then
          ((s.stepAt other).settle config now newStatus).withoutBatch
        else s.stepAt other := by
  have hparts := hreleases
  simp only [Step.releasesBatch, Bool.and_eq_true, beq_iff_eq, Option.isSome_iff_exists]
    at hparts
  obtain ⟨⟨hrunning, batchId, hbatch⟩, -⟩ := hparts
  have hloop : Writes ((s.batchRunningSteps batchId).forM fun member => do
      Trun.setStatusUpTo (depth + 1) now member newStatus config
      modify fun s => s.updateStep member Step.withoutBatch) s
      fun other => if other ∈ s.batchRunningSteps batchId then
        ((s.stepAt other).settle config now newStatus).withoutBatch
        else s.stepAt other := by
    refine Writes.forM hindex (hindex.nodup_batchRunningSteps batchId) _ _
      fun member hmember t htindex htsame hstep => ?_
    obtain ⟨hfiled, hstatus, -⟩ := hindex.mem_batchRunningSteps.mp hmember
    have htfiled : t.Filed member := by
      simpa [Filed, hstep, htsame.getStep] using hfiled
    have hkeeps : (t.stepAt member).releasesBatch newStatus = false := by
      simp [Step.releasesBatch, hstep, hstatus]
    refine (Writes.setStatusUpTo htindex htfiled now _ _ hconfig hkeeps depth).bind
      fun u huindex _ husteps => ?_
    obtain ⟨v, hrun, hvindex, hvsame, hvsteps⟩ :=
      Writes.updateStep huindex member Step.withoutBatch rfl rfl
    refine ⟨v, hrun, hvindex, hvsame, fun other => ?_⟩
    rw [hvsteps]
    by_cases hother : other = member
    · subst hother
      simp [husteps, hstep]
    · simp [hother, husteps]
  have hown : ref ∉ s.batchRunningSteps batchId := by
    intro hmem
    rw [hindex.mem_batchRunningSteps, hrunning] at hmem
    exact absurd hmem.2.1 (by decide)
  have hlast : ∀ t, t.Indexed → SameTables s t →
      (∀ other, t.stepAt other = if other ∈ s.batchRunningSteps batchId then
        ((s.stepAt other).settle config now newStatus).withoutBatch else s.stepAt other) →
      Writes (modify fun s => s.updateStep ref Step.withoutBatch) t fun other =>
        if other = ref then (s.stepAt ref).withoutBatch
        else if other ∈ s.batchRunningSteps batchId then
          ((s.stepAt other).settle config now newStatus).withoutBatch
        else s.stepAt other := by
    intro t htindex _ htsteps
    obtain ⟨u, hrun, huindex, husame, husteps⟩ :=
      Writes.updateStep htindex ref Step.withoutBatch rfl rfl
    refine ⟨u, hrun, huindex, husame, fun other => ?_⟩
    rw [husteps]
    by_cases hother : other = ref
    · subst hother
      simp [htsteps, hown]
    · simp [hother, htsteps]
  have hboth := hloop.bind hlast
  simp only [hindex.mem_batchRunningSteps, ← hbatch] at hboth
  simpa only [Writes, Trun.releaseBatch, exec_get_bind, hreleases, hbatch] using hboth

/-- `set_status` cannot fail on a step of the table, and does this. -/
theorem setStatus_spec (hindex : s.Indexed) {ref : Ref} (hfiled : s.Filed ref) (now : Time)
    (newStatus : Status) (config : Option Config)
    (hconfig : newStatus = .failed → config ≠ none) :
    Writes (setStatus now ref newStatus config) s (s.settled config now ref newStatus) := by
  unfold setStatus
  by_cases hreleases : (s.stepAt ref).ignores newStatus = false ∧
      (s.stepAt ref).releasesBatch newStatus = true
  · obtain ⟨hignores, hreleases⟩ := hreleases
    have hasserted : ¬(newStatus = .failed ∧ config = none) := fun h => hconfig h.1 h.2
    set s' := s.updateStep ref fun step => step.revive newStatus with hs'
    have hindex' : s'.Indexed := hindex.updateStep (by simp) (by simp)
    have hstep' : s'.stepAt ref = (s.stepAt ref).revive newStatus := by simp [hs']
    have hrelease := Writes.releaseBatch hindex' ref now hconfig
      (by rw [hstep', Step.releasesBatch_revive]; exact hreleases) 0
    obtain ⟨t, hrun, htindex, htsame, htsteps⟩ := Writes.applyStatus hfiled now hconfig
      hrelease (by simp [hstep', Step.leaveBatch, hreleases])
    refine ⟨t, ?_, htindex, htsame, fun other => ?_⟩
    · simpa [Trun.setStatusUpTo, setStatusBody, hasserted, hignores] using hrun
    · rw [htsteps]
      by_cases hother : other = ref
      · subst hother
        simp [settled, Step.settle, hignores]
      · have hother' : s'.stepAt other = s.stepAt other := by simp [hs', hother]
        have hfiled' : s'.Filed other ↔ s.Filed other := by
          unfold Filed
          rw [hother', hs', getStep_updateStep]
        simp only [Function.update_of_ne hother, settled, hother, if_false, Releases, hignores,
          hreleases, hother', hfiled', hstep', Step.revive_batchId, true_and]
  · have hkeep : ∀ other, ¬ s.Releases ref newStatus other := fun other h =>
      hreleases ⟨h.1, h.2.1⟩
    have hsettled : s.settled config now ref newStatus =
        Function.update s.stepAt ref ((s.stepAt ref).settle config now newStatus) := by
      funext other
      by_cases hother : other = ref
      · subst hother
        simp [settled]
      · simp [settled, hother, hkeep]
    rw [hsettled]
    by_cases hignores : (s.stepAt ref).ignores newStatus = true
    · have hasserted : ¬(newStatus = .failed ∧ config = none) := fun h => hconfig h.1 h.2
      have hpure : Writes (Pure.pure ()) s s.stepAt := .pure hindex
      simpa [Writes, Trun.setStatusUpTo, setStatusBody, hasserted, hignores, Step.settle]
        using hpure
    · refine Writes.setStatusUpTo hindex hfiled now _ _ hconfig ?_ 1
      simpa [hignores] using hreleases

end Scheduler

end Trun
