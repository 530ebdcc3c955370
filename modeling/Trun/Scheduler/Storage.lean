import Trun.Scheduler.StatusIndex

/-!
# Rows of the step table

Steps enter the table through `setdefaultStep`, leave it through
`inactivateStep`, and are read back by `load`.  Every object in the table has
been allocated, so a new object never takes the place of another one.
-/

namespace Trun

open Program

namespace Scheduler

/-- The index is exact and the table refers to allocated objects. -/
structure Stored (s : Scheduler) : Prop where
  index : s.Indexed
  allocated : ∀ {id ref}, s.getStep id = some ref → ref < s.nextRef

/-- The table refers to allocated objects. -/
def Allocated (s : Scheduler) : Prop := ∀ id ref, s.getStep id = some ref → ref < s.nextRef

variable {s t : Scheduler}

theorem Stored.rows_allocated (hstored : s.Stored) : s.Allocated :=
  fun _ _ h => hstored.allocated h

theorem Stored.filed_lt (hstored : s.Stored) {ref : Ref} (hfiled : s.Filed ref) :
    ref < s.nextRef := hstored.allocated hfiled

theorem Indexed.congr (hindex : s.Indexed) (hsteps : t.steps = s.steps)
    (hbuckets : t.statusSteps = s.statusSteps)
    (hid : ∀ ref, (t.stepAt ref).id = (s.stepAt ref).id)
    (hstatus : ∀ ref, (t.stepAt ref).status = (s.stepAt ref).status) : t.Indexed where
  step_id := by
    intro id ref hget
    rw [Scheduler.getStep, hsteps] at hget
    rw [hid]
    exact hindex.step_id hget
  bucket_iff := by
    intro status id ref
    have hbucket : t.bucket status = s.bucket status := by simp only [bucket, hbuckets]
    have hget : t.getStep id = s.getStep id := by simp only [Scheduler.getStep, hsteps]
    rw [hbucket, hget, hstatus]
    exact hindex.bucket_iff status id ref

/-- Changes of anything but ids, statuses, the step table and its index. -/
theorem Stored.congr (hstored : s.Stored) (hsteps : t.steps = s.steps)
    (hbuckets : t.statusSteps = s.statusSteps) (hnext : t.nextRef = s.nextRef)
    (hid : ∀ ref, (t.stepAt ref).id = (s.stepAt ref).id)
    (hstatus : ∀ ref, (t.stepAt ref).status = (s.stepAt ref).status) : t.Stored where
  index := hstored.index.congr hsteps hbuckets hid hstatus
  allocated := by
    intro id ref hget
    rw [Scheduler.getStep, hsteps] at hget
    rw [hnext]
    exact hstored.allocated hget

theorem Stored.of_same (hstored : s.Stored) (hindex : t.Indexed) (hsame : SameTables s t) :
    t.Stored where
  index := hindex
  allocated := by
    intro id ref hget
    rw [hsame.getStep] at hget
    rw [hsame.nextRef]
    exact hstored.allocated hget

theorem Stored.updateStep (hstored : s.Stored) {ref : Ref} {change : Step → Step}
    (hid : (change (s.stepAt ref)).id = (s.stepAt ref).id)
    (hstatus : (change (s.stepAt ref)).status = (s.stepAt ref).status) :
    (s.updateStep ref change).Stored :=
  hstored.of_same (hstored.index.updateStep hid hstatus) (sameTables_updateStep ..)

/-- Everything but the steps is the same. -/
structure SameSurroundings (s t : Scheduler) : Prop where
  activeWorkers : t.activeWorkers = s.activeWorkers
  stepBatchers : t.stepBatchers = s.stepBatchers
  resources : t.resources = s.resources
  paused : t.paused = s.paused
  saved : t.saved = s.saved

theorem SameSurroundings.refl (s : Scheduler) : SameSurroundings s s := ⟨rfl, rfl, rfl, rfl, rfl⟩

theorem SameTables.surroundings {s t : Scheduler} (hsame : SameTables s t) :
    SameSurroundings s t :=
  ⟨hsame.activeWorkers, hsame.stepBatchers, hsame.resources, hsame.paused, hsame.saved⟩

theorem SameSurroundings.trans {s t u : Scheduler} (hst : SameSurroundings s t)
    (htu : SameSurroundings t u) : SameSurroundings s u where
  activeWorkers := htu.activeWorkers.trans hst.activeWorkers
  stepBatchers := htu.stepBatchers.trans hst.stepBatchers
  resources := htu.resources.trans hst.resources
  paused := htu.paused.trans hst.paused
  saved := htu.saved.trans hst.saved

/-! ## Loops of field writes -/

theorem Indexed.nodup_activeSteps (hindex : s.Indexed) : s.activeSteps.Nodup := by
  refine Dict.nodup_values _ fun left right ref hleft hright => ?_
  rw [← hindex.step_id hleft, ← hindex.step_id hright]

/-- A loop that writes every step of a list once. -/
theorem stepAt_foldl_updateStep (refs : List Ref) (change : Step → Step) (s : Scheduler)
    (other : Ref) :
    (refs.foldl (fun current ref => current.updateStep ref change) s).stepAt other =
      change^[refs.count other] (s.stepAt other) := by
  induction refs generalizing s with
  | nil => rfl
  | cons ref rest ih =>
      rw [List.foldl_cons, ih, stepAt_updateStep]
      by_cases hother : other = ref
      · subst hother
        rw [if_pos rfl, List.count_cons_self, Function.iterate_succ_apply]
      · rw [if_neg hother, List.count_cons_of_ne (Ne.symm hother)]

theorem sameTables_foldl_updateStep (s : Scheduler) (refs : List Ref) (change : Step → Step) :
    SameTables s (refs.foldl (fun current ref => current.updateStep ref change) s) ∧
      (refs.foldl (fun current ref => current.updateStep ref change) s).statusSteps =
        s.statusSteps := by
  induction refs generalizing s with
  | nil => exact ⟨.refl s, rfl⟩
  | cons ref rest ih =>
      obtain ⟨hsame, hbuckets⟩ := ih (s.updateStep ref change)
      exact ⟨(sameTables_updateStep s ref change).trans hsame, hbuckets⟩

theorem stepAt_removeWorkersFromSteps (hindex : s.Indexed) (workers : List WorkerId)
    (removeStakeholders : Bool) (ref : Ref) :
    (s.removeWorkersFromSteps workers removeStakeholders).stepAt ref =
      if ref ∈ s.activeSteps then (s.stepAt ref).withoutWorkers workers removeStakeholders
      else s.stepAt ref := by
  unfold removeWorkersFromSteps
  rw [stepAt_foldl_updateStep, hindex.nodup_activeSteps.count]
  split
  · rfl
  · rfl

theorem sameTables_removeWorkersFromSteps (s : Scheduler) (workers : List WorkerId)
    (removeStakeholders : Bool) :
    SameTables s (s.removeWorkersFromSteps workers removeStakeholders) ∧
      (s.removeWorkersFromSteps workers removeStakeholders).statusSteps = s.statusSteps :=
  sameTables_foldl_updateStep ..

theorem Stored.removeWorkersFromSteps (hstored : s.Stored) (workers : List WorkerId)
    (removeStakeholders : Bool) :
    (s.removeWorkersFromSteps workers removeStakeholders).Stored := by
  obtain ⟨hsame, hbuckets⟩ := sameTables_removeWorkersFromSteps s workers removeStakeholders
  have hobjects := stepAt_removeWorkersFromSteps hstored.index workers removeStakeholders
  refine hstored.congr hsame.steps hbuckets hsame.nextRef ?_ ?_
  · intro ref
    rw [hobjects]
    split <;> rfl
  · intro ref
    rw [hobjects]
    split <;> rfl

/-! ## New rows -/

section SetDefault

variable (s) (ref : Ref) (step : Step)

@[simp] theorem activeWorkers_insertStep : (s.insertStep step).activeWorkers = s.activeWorkers := by
  unfold insertStep; split <;> rfl

@[simp] theorem activeWorkers_setdefaultStep :
    (s.setdefaultStep step).activeWorkers = s.activeWorkers := by
  have h := activeWorkers_insertStep s step
  unfold setdefaultStep
  dsimp only
  split <;> exact h

@[simp] theorem workerAt_setdefaultStep (worker : WorkerId) :
    (s.setdefaultStep step).workerAt worker = s.workerAt worker := by
  simp only [Scheduler.workerAt, activeWorkers_setdefaultStep]

/-- The tables that a new row leaves alone. -/
theorem others_setdefaultStep :
    (s.setdefaultStep step).stepBatchers = s.stepBatchers ∧
      (s.setdefaultStep step).resources = s.resources ∧
      (s.setdefaultStep step).paused = s.paused ∧
      (s.setdefaultStep step).saved = s.saved := by
  have hinsert : (s.insertStep step).stepBatchers = s.stepBatchers ∧
      (s.insertStep step).resources = s.resources ∧
      (s.insertStep step).paused = s.paused ∧ (s.insertStep step).saved = s.saved := by
    unfold insertStep; split <;> exact ⟨rfl, rfl, rfl, rfl⟩
  unfold setdefaultStep
  dsimp only
  split <;> exact hinsert

theorem sameSurroundings_setdefaultStep :
    SameSurroundings s (s.setdefaultStep step) := by
  obtain ⟨hbatchers, hresources, hpaused, hsaved⟩ := others_setdefaultStep s step
  exact ⟨activeWorkers_setdefaultStep s step, hbatchers, hresources, hpaused, hsaved⟩

end SetDefault

/-- Filing a step where it is filed already changes nothing. -/
theorem Indexed.fileStep_eq (hindex : s.Indexed) {ref : Ref} (hfiled : s.Filed ref) :
    s.fileStep ref = s := by
  have hbucket := hindex.get_bucket hfiled
  have hpresent : s.statusSteps.get? (s.stepAt ref).status =
      some (s.bucket (s.stepAt ref).status) := by
    unfold bucket Dict.getD at hbucket ⊢
    cases hget : s.statusSteps.get? (s.stepAt ref).status with
    | none => simp [hget] at hbucket
    | some _ => rfl
  have hmodify : s.statusSteps.modify (s.stepAt ref).status ∅
      (fun bucket => bucket.set (s.stepAt ref).id ref) = s.statusSteps := by
    have hinner : (s.statusSteps.getD (s.stepAt ref).status ∅).set (s.stepAt ref).id ref =
        s.bucket (s.stepAt ref).status := Dict.set_eq_self hbucket
    simp only [Dict.modify, hinner]
    exact Dict.set_eq_self hpresent
  simp only [Scheduler.fileStep, hmodify]

/-- A step under a known id is not replaced. -/
theorem Indexed.setdefaultStep_eq (hindex : s.Indexed) {step : Step} {ref : Ref}
    (hget : s.getStep step.id = some ref) : s.setdefaultStep step = s := by
  have hinsert : s.insertStep step = s := by simp only [insertStep, hget]
  unfold setdefaultStep
  simp only [hinsert, hget]
  exact hindex.fileStep_eq (hindex.filed hget)

section Fresh

variable {step : Step} (hfresh : s.getStep step.id = none)

include hfresh

private theorem insertStep_fresh :
    s.insertStep step = { s.allocate step with steps := s.steps.set step.id s.nextRef } := by
  simp only [insertStep, hfresh]

private theorem setdefaultStep_fresh :
    s.setdefaultStep step = (s.insertStep step).fileStep s.nextRef := by
  have hget : (s.insertStep step).getStep step.id = some s.nextRef := by
    simp [insertStep_fresh hfresh, Scheduler.getStep]
  simp only [setdefaultStep, hget]

theorem nextRef_setdefaultStep : (s.setdefaultStep step).nextRef = s.nextRef + 1 := by
  rw [setdefaultStep_fresh hfresh, insertStep_fresh hfresh]
  rfl

theorem getStep_setdefaultStep (id : StepId) :
    (s.setdefaultStep step).getStep id =
      if id = step.id then some s.nextRef else s.getStep id := by
  rw [setdefaultStep_fresh hfresh, insertStep_fresh hfresh]
  exact Dict.get?_set ..

theorem stepAt_setdefaultStep (ref : Ref) :
    (s.setdefaultStep step).stepAt ref = if ref = s.nextRef then step else s.stepAt ref := by
  rw [setdefaultStep_fresh hfresh, insertStep_fresh hfresh, stepAt_fileStep]
  exact Dict.getD_set ..

theorem get?_bucket_setdefaultStep (status : Status) (id : StepId) :
    ((s.setdefaultStep step).bucket status).get? id =
      if status = step.status ∧ id = step.id then some s.nextRef
      else (s.bucket status).get? id := by
  rw [setdefaultStep_fresh hfresh, bucket_fileStep]
  have hstep : (s.insertStep step).stepAt s.nextRef = step := by
    rw [insertStep_fresh hfresh]
    exact (Dict.getD_set ..).trans (if_pos rfl)
  have hbucket : (s.insertStep step).bucket status = s.bucket status := by
    rw [insertStep_fresh hfresh]
    rfl
  rw [hstep, hbucket]
  by_cases hstatus : status = step.status
  · rw [if_pos hstatus, Dict.get?_set]
    simp only [hstatus, true_and]
  · simp only [hstatus, if_false, false_and]

end Fresh

theorem Stored.setdefaultStep (hstored : s.Stored) (step : Step) :
    (s.setdefaultStep step).Stored := by
  cases hget : s.getStep step.id with
  | some ref =>
      rw [hstored.index.setdefaultStep_eq hget]
      exact hstored
  | none =>
      have hnew : ∀ {id ref}, s.getStep id = some ref → ref ≠ s.nextRef := fun hold =>
        Nat.ne_of_lt (hstored.allocated hold)
      refine ⟨⟨?_, ?_⟩, ?_⟩
      · intro id ref hrow
        rw [getStep_setdefaultStep hget] at hrow
        rw [stepAt_setdefaultStep hget]
        split_ifs at hrow with hid
        · rw [if_pos (Option.some.inj hrow).symm, hid]
        · rw [if_neg (hnew hrow)]
          exact hstored.index.step_id hrow
      · intro status id ref
        rw [get?_bucket_setdefaultStep hget, getStep_setdefaultStep hget,
          stepAt_setdefaultStep hget]
        by_cases hid : id = step.id
        · -- the id of the new row is in no bucket yet
          have hnone : (s.bucket status).get? step.id ≠ some ref := by
            intro hbucket
            have hrow := ((hstored.index.bucket_iff _ _ _).mp hbucket).1
            simp [hget] at hrow
          by_cases href : ref = s.nextRef
          · by_cases hstatus : status = step.status
            · simp [hid, href, hstatus]
            · have hne : ¬step.status = status := fun h => hstatus h.symm
              subst href
              simp [hid, hstatus, hnone, hne]
          · have hne : some s.nextRef ≠ some ref := fun h => href (Option.some.inj h).symm
            by_cases hstatus : status = step.status <;> simp [hid, hstatus, hne, hnone]
        · simp only [hid, and_false, if_false]
          rw [hstored.index.bucket_iff]
          constructor
          · rintro ⟨hrow, hstatus⟩
            rw [if_neg (hnew hrow)]
            exact ⟨hrow, hstatus⟩
          · rintro ⟨hrow, hstatus⟩
            rw [if_neg (hnew hrow)] at hstatus
            exact ⟨hrow, hstatus⟩
      · intro id ref hrow
        rw [getStep_setdefaultStep hget] at hrow
        rw [nextRef_setdefaultStep hget]
        split_ifs at hrow with hid
        · rw [← Option.some.inj hrow]
          exact Nat.lt_succ_self _
        · exact Nat.lt_succ_of_lt (hstored.allocated hrow)

theorem nextRef_le_setdefaultStep (hstored : s.Stored) (step : Step) :
    s.nextRef ≤ (s.setdefaultStep step).nextRef := by
  cases hget : s.getStep step.id with
  | some ref => rw [hstored.index.setdefaultStep_eq hget]
  | none =>
      rw [nextRef_setdefaultStep hget]
      exact Nat.le_succ _

/-! ## Workers that make themselves known -/

/-- Only signs of life and information about workers are recorded. -/
structure Greets (s t : Scheduler) : Prop where
  heap : t.heap = s.heap
  nextRef : t.nextRef = s.nextRef
  steps : t.steps = s.steps
  statusSteps : t.statusSteps = s.statusSteps
  stepBatchers : t.stepBatchers = s.stepBatchers
  resources : t.resources = s.resources
  paused : t.paused = s.paused
  saved : t.saved = s.saved
  worker : ∀ id, (t.workerAt id).id = (s.workerAt id).id ∧
    (t.workerAt id).steps = (s.workerAt id).steps ∧
    (t.workerAt id).disabled = (s.workerAt id).disabled
  keeps : ∀ id, (s.activeWorkers.get? id).isSome = true →
    (t.activeWorkers.get? id).isSome = true

theorem Greets.refl (s : Scheduler) : Greets s s :=
  ⟨rfl, rfl, rfl, rfl, rfl, rfl, rfl, rfl, fun _ => ⟨rfl, rfl, rfl⟩, fun _ h => h⟩

theorem Greets.trans {u : Scheduler} (hst : Greets s t) (htu : Greets t u) : Greets s u where
  heap := htu.heap.trans hst.heap
  nextRef := htu.nextRef.trans hst.nextRef
  steps := htu.steps.trans hst.steps
  statusSteps := htu.statusSteps.trans hst.statusSteps
  stepBatchers := htu.stepBatchers.trans hst.stepBatchers
  resources := htu.resources.trans hst.resources
  paused := htu.paused.trans hst.paused
  saved := htu.saved.trans hst.saved
  worker := fun id =>
    ⟨(htu.worker id).1.trans (hst.worker id).1, (htu.worker id).2.1.trans (hst.worker id).2.1,
      (htu.worker id).2.2.trans (hst.worker id).2.2⟩
  keeps := fun id h => htu.keeps id (hst.keeps id h)

/-- Whatever does not read the workers reads the same. -/
theorem Greets.eq_with (hgreets : Greets s t) :
    ∃ workers, t = { s with activeWorkers := workers } := by
  obtain ⟨h1, h2, h3, h4, h5, h6, h7, h8, -, -⟩ := hgreets
  refine ⟨t.activeWorkers, ?_⟩
  cases s
  cases t
  simp_all

theorem Greets.stepAt (hgreets : Greets s t) (ref : Ref) : t.stepAt ref = s.stepAt ref := by
  simp only [Scheduler.stepAt, hgreets.heap]

theorem Greets.getStep (hgreets : Greets s t) (id : StepId) : t.getStep id = s.getStep id := by
  simp only [Scheduler.getStep, hgreets.steps]

theorem Greets.bucket (hgreets : Greets s t) (status : Status) :
    t.bucket status = s.bucket status := by
  simp only [Scheduler.bucket, hgreets.statusSteps]

theorem Greets.filed (hgreets : Greets s t) (ref : Ref) : t.Filed ref ↔ s.Filed ref := by
  simp only [Filed, hgreets.getStep, hgreets.stepAt]

theorem Greets.stored (hgreets : Greets s t) (hstored : s.Stored) : t.Stored :=
  hstored.congr hgreets.steps hgreets.statusSteps hgreets.nextRef
    (fun ref => by rw [hgreets.stepAt]) fun ref => by rw [hgreets.stepAt]

theorem workerAt_eq {id : WorkerId} {worker : Worker}
    (hget : s.activeWorkers.get? id = some worker) : s.workerAt id = worker := by
  simp [Scheduler.workerAt, Dict.getD, hget]

@[simp] theorem workerAt_updateWorkerAt (s : Scheduler) (id other : WorkerId)
    (change : Worker → Worker) :
    (s.updateWorkerAt id change).workerAt other =
      if other = id then change (s.workerAt id) else s.workerAt other := by
  by_cases hother : other = id <;> simp [updateWorkerAt, Scheduler.workerAt, Dict.getD, hother]

theorem greets_ensureWorker (s : Scheduler) (now : Time) (id : WorkerId) :
    Greets s (s.ensureWorker now id) := by
  unfold ensureWorker
  split
  · exact .refl s
  · rename_i hnone
    refine ⟨rfl, rfl, rfl, rfl, rfl, rfl, rfl, rfl, fun other => ?_, fun other h => ?_⟩
    · by_cases hother : other = id
      · subst hother
        simp [Scheduler.workerAt, Dict.getD, hnone]
      · simp [Scheduler.workerAt, Dict.getD, hother]
    · by_cases hother : other = id <;> simp [hother, h]

/-- A write that keeps a worker's id, its steps and whether it is disabled. -/
theorem greets_updateWorkerAt (s : Scheduler) (id : WorkerId) {change : Worker → Worker}
    (hchange : ∀ worker, (change worker).id = worker.id ∧
      (change worker).steps = worker.steps ∧ (change worker).disabled = worker.disabled) :
    Greets s (s.updateWorkerAt id change) := by
  refine ⟨rfl, rfl, rfl, rfl, rfl, rfl, rfl, rfl, fun other => ?_, fun other h => ?_⟩
  · rw [workerAt_updateWorkerAt]
    split
    · rename_i hother
      rw [hother]
      exact hchange _
    · exact ⟨rfl, rfl, rfl⟩
  · by_cases hother : other = id <;> simp [updateWorkerAt, hother, h]

theorem greets_updateWorker (s : Scheduler) (now : Time) (id : WorkerId) (getWork : Bool) :
    Greets s (s.updateWorker now id getWork) :=
  (greets_ensureWorker s now id).trans
    (greets_updateWorkerAt _ id fun _ => ⟨rfl, rfl, rfl⟩)

end Scheduler

end Trun
