import Trun.Scheduler.Soundness

/-!
# Soundness over runs

Every request keeps a sound state sound, as long as `get_work` looks at no
pending step that was removed.  The state file holds the tables of a sound state,
so `load` keeps it, too.
-/

namespace Trun

open Program

/-- The invariant holds, and the state file holds the tables of a state in which
it held. -/
def Lasting (invariant : Scheduler → Prop) (s : Scheduler) : Prop :=
  invariant s ∧ ∀ saved, s.saved = some saved → ∃ u, invariant u ∧ saved = u.getState

namespace Scheduler

variable {s t : Scheduler}

/-! ## Reading the state file -/

/-- The same objects, rows and workers with an exact index. -/
theorem Sound.reindex (hsound : s.Sound) (hindex : t.Indexed) (hheap : t.heap = s.heap)
    (hnext : t.nextRef = s.nextRef) (hsteps : t.steps = s.steps)
    (hworkers : t.activeWorkers = s.activeWorkers) : t.Sound := by
  have hstepAt : ∀ ref, t.stepAt ref = s.stepAt ref := fun ref => by
    simp only [Scheduler.stepAt, hheap]
  have hget : ∀ id, t.getStep id = s.getStep id := fun id => by
    simp only [Scheduler.getStep, hsteps]
  have hfiled : ∀ ref, t.Filed ref → s.Filed ref := fun ref h => by
    unfold Filed at h ⊢
    rwa [hget, hstepAt] at h
  have hworkerAt : ∀ worker, t.workerAt worker = s.workerAt worker := fun worker => by
    simp only [Scheduler.workerAt, hworkers]
  refine ⟨⟨hindex, fun {id ref} h => ?_⟩, ?_, fun ref href => ?_⟩
  · rw [hget] at h
    rw [hnext]
    exact hsound.stored.allocated h
  · refine hsound.rostered.congr (fun worker => ?_) (fun worker h => ?_)
      (le_of_eq hnext.symm) hfiled (fun ref _ => by rw [hstepAt]) hsound.stored
    · rw [hworkerAt]
      exact ⟨rfl, rfl⟩
    · rw [hworkers]
      exact h
  · rw [hstepAt]
    exact hsound.recorded ref (href.imp (hfiled ref) fun worker h => hworkerAt worker ▸ h)

section FileSteps

/-- Filing steps one after the other touches the index only. -/
theorem foldl_fileStep_tables (s : Scheduler) (refs : List Ref) :
    (refs.foldl fileStep s).heap = s.heap ∧ (refs.foldl fileStep s).nextRef = s.nextRef ∧
      (refs.foldl fileStep s).steps = s.steps ∧
      (refs.foldl fileStep s).activeWorkers = s.activeWorkers ∧
      (refs.foldl fileStep s).saved = s.saved := by
  induction refs generalizing s with
  | nil => exact ⟨rfl, rfl, rfl, rfl, rfl⟩
  | cons ref rest ih => exact ih (s.fileStep ref)

/-- The index that filing steps with different ids leads to. -/
theorem get?_bucket_foldl_fileStep (s : Scheduler) {refs : List Ref}
    (hnodup : (refs.map fun ref => (s.stepAt ref).id).Nodup) (status : Status) (id : StepId)
    (ref : Ref) :
    ((refs.foldl fileStep s).bucket status).get? id = some ref ↔
      (ref ∈ refs ∧ (s.stepAt ref).id = id ∧ (s.stepAt ref).status = status) ∨
        ((∀ other ∈ refs, (s.stepAt other).id = id → (s.stepAt other).status ≠ status) ∧
          (s.bucket status).get? id = some ref) := by
  induction refs generalizing s with
  | nil => simp
  | cons first rest ih =>
      simp only [List.map_cons, List.nodup_cons, List.mem_map, not_exists, not_and] at hnodup
      have hsame : ∀ other, (s.fileStep first).stepAt other = s.stepAt other := fun _ => rfl
      rw [List.foldl_cons, ih (s.fileStep first) (by simpa only [hsame] using hnodup.2)]
      simp only [hsame, bucket_fileStep, List.mem_cons, forall_eq_or_imp]
      by_cases hfirst : (s.stepAt first).id = id ∧ (s.stepAt first).status = status
      · obtain ⟨rfl, rfl⟩ := hfirst
        have hrest : ∀ other ∈ rest, (s.stepAt other).id = (s.stepAt first).id →
            (s.stepAt other).status ≠ (s.stepAt first).status :=
          fun other hother h => absurd h (hnodup.1 other hother)
        simp only [if_true, Dict.get?_set]
        constructor
        · rintro (⟨hmem, hid, -⟩ | ⟨-, h⟩)
          · exact absurd hid (hnodup.1 ref hmem)
          · obtain rfl := Option.some.inj h
            exact .inl ⟨.inl rfl, rfl, rfl⟩
        · rintro (⟨rfl | hmem, hid, -⟩ | ⟨⟨h, -⟩, -⟩)
          · exact .inr ⟨hrest, rfl⟩
          · exact absurd hid (hnodup.1 ref hmem)
          · exact absurd rfl (h trivial)
      · have hbucket : (if status = (s.stepAt first).status then
            (s.bucket status).set (s.stepAt first).id first else s.bucket status).get? id =
            (s.bucket status).get? id := by
          split
          · rename_i hstatus
            rw [Dict.get?_set, if_neg]
            exact fun h => hfirst ⟨h.symm, hstatus.symm⟩
          · rfl
        rw [hbucket]
        constructor
        · rintro (⟨hmem, hid, hstatus⟩ | ⟨hrest, h⟩)
          · exact .inl ⟨.inr hmem, hid, hstatus⟩
          · exact .inr ⟨⟨fun hid hstatus => hfirst ⟨hid, hstatus⟩, hrest⟩, h⟩
        · rintro (⟨rfl | hmem, hid, hstatus⟩ | ⟨⟨-, hrest⟩, h⟩)
          · exact absurd ⟨hid, hstatus⟩ hfirst
          · exact .inl ⟨hmem, hid, hstatus⟩
          · exact .inr ⟨hrest, h⟩

end FileSteps

/-- `load` restores the tables of the state that was dumped. -/
theorem load_eq {u : Scheduler} (hsaved : s.saved = some u.getState) :
    s.load.heap = u.heap ∧ s.load.nextRef = u.nextRef ∧ s.load.steps = u.steps ∧
      s.load.activeWorkers = u.activeWorkers ∧ s.load.saved = s.saved := by
  unfold load
  rw [hsaved]
  dsimp only
  obtain ⟨hheap, hnext, hsteps, hworkers, hsaved'⟩ := foldl_fileStep_tables
    { s.setState u.getState with statusSteps := ∅ }
    ({ s.setState u.getState with statusSteps := ∅ } : Scheduler).activeSteps
  exact ⟨hheap, hnext, hsteps, hworkers, hsaved'.trans hsaved⟩

/-- All that the new index takes is rows under their ids. -/
theorem load_indexed {u : Scheduler}
    (hrows : ∀ {id ref}, u.getStep id = some ref → (u.stepAt ref).id = id)
    (hsaved : s.saved = some u.getState) : s.load.Indexed := by
  obtain ⟨hheap, -, hsteps, -, -⟩ := load_eq hsaved
  have hstepAt : ∀ ref, s.load.stepAt ref = u.stepAt ref := fun ref => by
    simp only [Scheduler.stepAt, hheap]
  have hget : ∀ id, s.load.getStep id = u.getStep id := fun id => by
    simp only [Scheduler.getStep, hsteps]
  set restored : Scheduler := { s.setState u.getState with statusSteps := ∅ } with hrestored
  have hload : s.load = u.activeSteps.foldl fileStep restored := by
    unfold load
    rw [hsaved]
    rfl
  have hlisted : u.activeSteps.Nodup := Dict.nodup_values _ fun left right ref hleft hright => by
    rw [← hrows hleft, ← hrows hright]
  have hnodup : (u.activeSteps.map fun ref => (restored.stepAt ref).id).Nodup := by
    refine (List.nodup_map_iff_inj_on hlisted).mpr fun left hleft right hright hid => ?_
    obtain ⟨id, hget⟩ := (mem_activeSteps ..).mp hleft
    obtain ⟨other, hother⟩ := (mem_activeSteps ..).mp hright
    have hsame : id = other := ((hrows hget).symm.trans hid).trans (hrows hother)
    rw [hsame, hother] at hget
    exact (Option.some.inj hget).symm
  refine ⟨fun {id ref} h => ?_, fun status id ref => ?_⟩
  · rw [hget] at h
    rw [hstepAt]
    exact hrows h
  · have hempty : (restored.bucket status).get? id = none := rfl
    rw [hload, get?_bucket_foldl_fileStep restored hnodup, ← hload, hget, hstepAt]
    constructor
    · rintro (⟨hmem, rfl, hstatus⟩ | ⟨-, h⟩)
      · obtain ⟨id, hget⟩ := (mem_activeSteps ..).mp hmem
        have hid : (restored.stepAt ref).id = id := hrows hget
        exact ⟨hid ▸ hget, hstatus⟩
      · rw [hempty] at h
        cases h
    · rintro ⟨hrow, hstatus⟩
      exact .inl ⟨(mem_activeSteps ..).mpr ⟨id, hrow⟩, hrows hrow, hstatus⟩

theorem load_sound (hlasting : Lasting Sound s) : s.load.Sound := by
  cases hsaved : s.saved with
  | none =>
      have hload : s.load = s := by simp only [load, hsaved]
      rw [hload]
      exact hlasting.1
  | some saved =>
      obtain ⟨u, hsound, rfl⟩ := hlasting.2 saved hsaved
      obtain ⟨hheap, hnext, hsteps, hworkers, -⟩ := load_eq hsaved
      exact hsound.reindex (load_indexed hsound.index.step_id hsaved) hheap hnext hsteps hworkers

/-! ## The handlers -/

/-- No step leaves the table, and a worker newly lists steps of the table only. -/
structure Extends (s t : Scheduler) : Prop where
  saved : t.saved = s.saved
  filed : ∀ ref, s.Filed ref → t.Filed ref
  listed : ∀ {worker ref}, ref ∈ (t.workerAt worker).steps →
    ref ∈ (s.workerAt worker).steps ∨ t.Filed ref

theorem Extends.refl (s : Scheduler) : Extends s s := ⟨rfl, fun _ h => h, .inl⟩

theorem Extends.trans {u : Scheduler} (hst : Extends s t) (htu : Extends t u) : Extends s u where
  saved := htu.saved.trans hst.saved
  filed := fun ref h => htu.filed ref (hst.filed ref h)
  listed := fun h => (htu.listed h).elim
    (fun h => (hst.listed h).imp_right (htu.filed _)) .inr

theorem extends_of_same (hsaved : t.saved = s.saved) (hget : ∀ id, t.getStep id = s.getStep id)
    (hid : ∀ ref, (t.stepAt ref).id = (s.stepAt ref).id)
    (hlisted : ∀ worker, (t.workerAt worker).steps = (s.workerAt worker).steps) :
    Extends s t where
  saved := hsaved
  filed := fun ref h => by
    unfold Filed at h ⊢
    rwa [hget, hid]
  listed := fun h => .inl (hlisted _ ▸ h)

theorem Greets.extends (hgreets : Greets s t) : Extends s t :=
  extends_of_same hgreets.saved hgreets.getStep (fun ref => by rw [hgreets.stepAt])
    fun worker => (hgreets.worker worker).2.1

theorem SameTables.extends (hsame : SameTables s t)
    (hid : ∀ ref, (t.stepAt ref).id = (s.stepAt ref).id) : Extends s t :=
  extends_of_same hsame.saved hsame.getStep hid fun worker => by rw [hsame.workerAt]

theorem Describes.extends (hdescribes : Describes s t) : Extends s t :=
  hdescribes.same.extends fun ref => (congrArg Step.id (hdescribes.core ref) :)

/-- What a handler promises that neither prunes nor uses the state file. -/
def soundContract : Contract Raised Scheduler where
  inv := Sound
  rel := Extends
  allows error := error ≠ .statusBucket ∧ error ≠ .stepTable
  refl := .refl
  trans := .trans

theorem change_meets {update : Scheduler → Scheduler}
    (hupdate : (update s).Sound) (hextends : Extends s (update s)) :
    Meets soundContract (change update) s :=
  .bind (.modify hupdate hextends) fun _ _ _ h => .pure _ h

/-- A handler followed by its reply. -/
theorem reply_meets {α : Type} {contract : Contract Raised Scheduler} {program : SchedulerM α}
    (reply : α → Response) (hmeets : Meets contract program s) :
    Meets contract (do let value ← program; pure (reply value)) s :=
  .bind hmeets fun _ _ _ h => .pure _ h

theorem Prunes.saved {config : Config} {now : Time} (hprunes : Prunes config now s t) :
    t.saved = s.saved := by
  obtain ⟨swept, removed, hsweeps, hdrops, -⟩ := hprunes.outcome
  rw [hdrops.surroundings.saved, hsweeps.same.saved, hprunes.inactivates.saved]

theorem Receives.saved {env : Env} {moment : Moment} (hreceives : Receives env moment s t) :
    t.saved = s.saved := by
  cases hprune : env.config.pruneOnGetWork with
  | true =>
      obtain ⟨u, hprunes, hgreets⟩ := hreceives.prunes hprune
      exact hgreets.saved.trans hprunes.saved
  | false => exact (hreceives.greets hprune).saved

theorem Prepares.saved {now : Time} {args : GetWorkArgs} (hprepares : Prepares now args s t) :
    t.saved = s.saved := by
  obtain ⟨u, hgreets, hsame⟩ := hprepares.greeted
  exact hsame.saved.trans hgreets.saved

theorem HandsOut.saved {env : Env} {now : Time} {worker : WorkerId} {selection : Selection}
    {work : Work} (hhands : HandsOut env now worker selection s work t) : t.saved = s.saved := by
  cases hhands with
  | nothing => rfl
  | single _ _ hands => exact hands.same.saved
  | batch _ _ hands => exact hands.same.saved

theorem GetsWork.saved {env : Env} {moment : Moment} {args : GetWorkArgs}
    {outcome : Except Raised Reply} (hworks : GetsWork env moment args s outcome t) :
    t.saved = s.saved := by
  cases hworks with
  | refused hreceives _ => exact hreceives.saved
  | failed hreceives _ hprepares hgreets _ =>
      rw [hgreets.saved, hprepares.saved, hreceives.saved]
  | served hreceives _ hprepares hgreets hhands =>
      rw [hhands.saved, hgreets.saved, hprepares.saved, hreceives.saved]

/-- `get_work` may raise, but not in a `pop`. -/
theorem GetsWork.allowed {env : Env} {moment : Moment} {args : GetWorkArgs}
    {outcome : Except Raised Reply} (hworks : GetsWork env moment args s outcome t)
    {error : Raised} (herror : outcome = .error error) :
    error ≠ .statusBucket ∧ error ≠ .stepTable := by
  cases hworks with
  | refused => cases herror
  | failed _ _ _ _ hraises =>
      obtain ⟨-, -, hallowed⟩ := countPending_meets moment args.worker (env.ranked s moment args)
      refine hallowed error ?_
      simp only [Program.result, hraises]
      cases herror
      rfl
  | served => cases herror

theorem Accepts.extends {config : Config} {moment : Moment} {args : AddStepArgs} {ref : Ref}
    {enabled : Bool} (hstored : s.Stored) (hfiled : s.Filed ref)
    (haccepts : Accepts config moment args ref enabled s t) : Extends s t := by
  have hid : ∀ other < s.nextRef, (t.stepAt other).id = (s.stepAt other).id := by
    intro other hlt
    by_cases hother : other = ref
    · subst hother
      have hreport : ((s.openedStep moment args other).report config moment args).id =
          (s.stepAt other).id := by
        rw [← (openedStep_plan_fields s moment args other).1]
        unfold Step.report
        split
        · exact Step.settle_id ..
        · rfl
      rw [← hreport]
      exact (congrArg Step.id haccepts.target :)
    · have hcore := haccepts.other other hlt hother
      split at hcore
      · have hsettle := Step.settle_id (s.stepAt other) (some config) moment.now args.newStatus
        exact (congrArg Step.id hcore :).trans hsettle
      · exact (congrArg Step.id hcore :)
  have hkept : ∀ other, s.Filed other → t.Filed other := fun other h => by
    have hrow := haccepts.keeps h
    unfold Filed
    rwa [hid other (hstored.filed_lt h)]
  refine ⟨haccepts.saved, hkept, fun {worker other} h => ?_⟩
  rw [haccepts.workerAt] at h
  split at h
  · rename_i hcondition
    simp only [OrderedSet.mem_rehash, OrderedSet.mem_add] at h
    rcases h with rfl | h
    · exact .inr (hkept _ hfiled)
    · exact .inl (hcondition.2 ▸ h)
  · exact .inl h

theorem AddsStep.extends {config : Config} {moment : Moment} {args : AddStepArgs}
    {outcome : Except Raised Unit} (hstored : s.Stored)
    (hadds : AddsStep config moment args s outcome t) : Extends s t := by
  cases hadds with
  | dropped => exact .refl s
  | accepted hget _ _ haccepts => exact haccepts.extends hstored (hstored.index.filed hget)
  | @failed target =>
      refine ((sameTables_updateStep ..).trans (sameTables_updateStep ..)).extends fun ref => ?_
      by_cases href : ref = target <;>
        simp [href, Step.joinBatch, Step.fillPlaceholder]

theorem setdefaultStep_extends (hstored : s.Stored) (step : Step) :
    Extends s (s.setdefaultStep step) := by
  cases hget : s.getStep step.id with
  | some ref =>
      rw [hstored.index.setdefaultStep_eq hget]
      exact .refl s
  | none =>
      refine ⟨(sameSurroundings_setdefaultStep s step).saved, fun ref h => ?_, fun h => ?_⟩
      · have hne : ref ≠ s.nextRef := Nat.ne_of_lt (hstored.filed_lt h)
        have hid : (s.stepAt ref).id ≠ step.id := fun heq => by
          unfold Filed at h
          rw [heq, hget] at h
          cases h
        unfold Filed
        rw [stepAt_setdefaultStep hget, if_neg hne, getStep_setdefaultStep hget, if_neg hid]
        exact h
      · rw [workerAt_setdefaultStep] at h
        exact .inl h

theorem receiveStep_extends (hstored : s.Stored) (config : Config) (moment : Moment)
    (args : AddStepArgs) : Extends s (s.receiveStep config moment args) := by
  have hgreets := greets_updateWorker s moment.now args.worker false
  unfold receiveStep
  dsimp only
  split
  · exact hgreets.extends.trans (setdefaultStep_extends (hgreets.stored hstored) _)
  · exact hgreets.extends

theorem Sound.addStep_meets (hsound : s.Sound) (config : Config) (moment : Moment)
    (args : AddStepArgs) : Meets soundContract (addStep config moment args) s := by
  obtain ⟨outcome, t, hrun, hadds⟩ := addStep_spec config moment args hsound.stored
  have hreceived := hsound.receiveStep config moment args
  refine .of_exec hrun (hreceived.addsStep hadds)
    ((receiveStep_extends hsound.stored config moment args).trans
      (hadds.extends hreceived.stored)) fun error herror => ?_
  cases hadds with
  | dropped => cases herror
  | accepted => cases herror
  | failed _ _ _ hkind =>
      cases herror
      rcases hkind with rfl | rfl <;> exact ⟨by decide, by decide⟩

theorem Sound.countPending_meets (hsound : s.Sound) (moment : Moment) (worker : WorkerId) :
    Meets soundContract (countPending moment worker) s := by
  obtain ⟨-, hgreets, hallowed⟩ := Scheduler.countPending_meets moment worker s
  exact ⟨hsound.greets hgreets, hgreets.extends, hallowed⟩

theorem Sound.setStatus_meets (hsound : s.Sound) {ref : Ref} (hfiled : s.Filed ref) (now : Time)
    {newStatus : Status} (config : Config) (hnew : newStatus ≠ .running) :
    Meets soundContract (Trun.setStatus now ref newStatus (some config)) s := by
  obtain ⟨t, hrun, hsound', hsame, hsteps⟩ :=
    hsound.setStatus hfiled now newStatus (some config) (by simp) fun h => absurd h hnew
  refine .of_exec hrun hsound' (hsame.extends fun other => ?_) fun _ h => by cases h
  rw [hsteps]
  exact (congrArg Step.id (settled_plan s (some config) now ref newStatus other) :)

theorem Sound.forgiveFailures_meets (hsound : s.Sound) (config : Config) (now : Time)
    (id : StepId) : Meets soundContract (forgiveFailures config now id) s := by
  refine .get_bind ?_
  split
  · exact .pure _ hsound
  · rename_i ref hget
    refine .ite (fun _ => ?_) fun _ => .pure _ hsound
    exact hsound.setStatus_meets (hsound.index.filed hget) now config (by decide)

theorem Sound.markAsDone_meets (hsound : s.Sound) (config : Config) (now : Time)
    (id : StepId) : Meets soundContract (markAsDone config now id) s := by
  refine .get_bind ?_
  split
  · exact .pure _ hsound
  · rename_i ref hget
    refine .ite (fun _ => ?_) fun _ => .pure _ hsound
    exact hsound.setStatus_meets (hsound.index.filed hget) now config (by decide)

theorem Sound.reEnableStep_meets (hsound : s.Sound) (config : Config) (now : Time)
    (id : StepId) : Meets soundContract (reEnableStep config now id) s := by
  refine .get_bind ?_
  split
  · exact .pure _ hsound
  · rename_i ref hget
    refine .ite (fun hdisabled => ?_) fun _ => .pure _ hsound
    obtain ⟨t, hrun, hsweeps⟩ :=
      reEnable_sweeps config now ([]) hsound.index (hsound.index.filed hget) hdisabled.1
    exact .of_exec hrun (hsound.sweeps hsweeps)
      (hsweeps.same.extends fun ref => (hsweeps.object ref).id) fun _ h => by cases h

theorem decreaseStep_honours (amounts : Resources) (ref : Ref) :
    Honours soundContract (decreaseStep amounts ref) := by
  intro s hsound
  refine .get_bind ?_
  split
  · exact .throw hsound ⟨by decide, by decide⟩
  · refine .modify ?_ ((sameTables_updateStep ..).extends fun other => ?_)
    swap
    · rw [stepAt_updateStep]
      split <;> rfl
    refine hsound.write (hsound.index.updateStep rfl rfl) (sameTables_updateStep ..)
      (fun other => ?_) (fun other => ?_) fun other h => ?_ <;> rw [stepAt_updateStep]
    · split <;> rfl
    · split <;> rfl
    · split
      · exact h.congr rfl rfl rfl
      · exact h

theorem Sound.decrease_meets (hsound : s.Sound) (id : StepId) (amounts : Resources) :
    Meets soundContract (decreaseRunningStepResources id amounts) s := by
  refine .get_bind ?_
  split
  · exact .pure _ hsound
  · refine .ite (fun _ => ?_) fun _ => .pure _ hsound
    refine .bind (decreaseStep_honours amounts _ s hsound) fun _ t _ hsound' => ?_
    split
    · exact .pure _ hsound'
    · exact Honours.forM (fun other _ => decreaseStep_honours amounts other) t hsound'

theorem describes_reportToBatch (s : Scheduler) (id : StepId) {change : Step → Step}
    (hcore : ∀ step, (change step).core = step.core)
    (hstakeholders : ∀ step, (change step).stakeholders = step.stakeholders) :
    Describes s (s.reportToBatch id change) := by
  unfold reportToBatch
  split
  · exact .refl s
  · split
    · exact describes_updateWithBatch hcore hstakeholders
    · exact describes_updateStep hcore hstakeholders

theorem greets_addWorker (s : Scheduler) (now : Time) (worker : WorkerId) (info : WorkerInfo) :
    Greets s (s.addWorker now worker info) :=
  (greets_ensureWorker s now worker).trans
    (greets_updateWorkerAt _ worker fun _ => ⟨rfl, rfl, rfl⟩)

theorem stepAt_disableWorker (hindex : s.Indexed) (now : Time) (worker : WorkerId) (ref : Ref) :
    (s.disableWorker now worker).stepAt ref =
      if ref ∈ s.activeSteps then (s.stepAt ref).withoutWorkers [worker] false
      else s.stepAt ref := by
  calc (s.disableWorker now worker).stepAt ref
      = (s.removeWorkersFromSteps [worker] false).stepAt ref :=
        (greets_ensureWorker _ now worker).stepAt ref
    _ = _ := stepAt_removeWorkersFromSteps hindex [worker] false ref

theorem id_disableWorker (hindex : s.Indexed) (now : Time) (worker : WorkerId) (ref : Ref) :
    ((s.disableWorker now worker).stepAt ref).id = (s.stepAt ref).id := by
  rw [stepAt_disableWorker hindex]
  split <;> rfl

theorem getStep_disableWorker (s : Scheduler) (now : Time) (worker : WorkerId) (id : StepId) :
    (s.disableWorker now worker).getStep id = s.getStep id := by
  calc (s.disableWorker now worker).getStep id
      = (s.removeWorkersFromSteps [worker] false).getStep id :=
        (greets_ensureWorker _ now worker).getStep id
    _ = _ := (sameTables_removeWorkersFromSteps s [worker] false).1.getStep id

theorem filed_disableWorker (hindex : s.Indexed) (now : Time) (worker : WorkerId) (ref : Ref) :
    (s.disableWorker now worker).Filed ref ↔ s.Filed ref := by
  unfold Filed
  rw [getStep_disableWorker, id_disableWorker hindex]

theorem Sound.disableWorker (hsound : s.Sound) (now : Time) (worker : WorkerId) :
    (s.disableWorker now worker).Sound := by
  have hobjects := stepAt_disableWorker hsound.index now worker
  have hfiled := filed_disableWorker hsound.index now worker
  set s1 := s.removeWorkersFromSteps [worker] false with hs1
  set s2 := s1.ensureWorker now worker with hs2
  set t := s2.updateWorkerAt worker fun worker => { worker with disabled := true, steps := ∅ }
    with ht
  have hdisable : s.disableWorker now worker = t := rfl
  rw [hdisable] at hobjects hfiled ⊢
  obtain ⟨hsame, -⟩ := sameTables_removeWorkersFromSteps s [worker] false
  have hgreets : Greets s1 s2 := greets_ensureWorker s1 now worker
  have hworkerAt : ∀ other, (t.workerAt other).id = (s.workerAt other).id ∧
      (t.workerAt other).steps = if other = worker then ∅ else (s.workerAt other).steps := by
    intro other
    obtain ⟨hgid, hgsteps, -⟩ := hgreets.worker other
    have hold : s1.workerAt other = s.workerAt other := hsame.workerAt other
    rw [hold] at hgid hgsteps
    rw [ht, workerAt_updateWorkerAt]
    split
    · rename_i hother
      exact ⟨hother ▸ hgid, rfl⟩
    · exact ⟨hgid, hgsteps⟩
  have hstored : t.Stored :=
    (hgreets.stored (hsound.stored.removeWorkersFromSteps [worker] false)).congr rfl rfl rfl
      (fun _ => rfl) fun _ => rfl
  have hnext : t.nextRef = s.nextRef := (hgreets.nextRef).trans hsame.nextRef
  have hlisted : ∀ {other ref}, ref ∈ (t.workerAt other).steps →
      other ≠ worker ∧ ref ∈ (s.workerAt other).steps := by
    intro other ref h
    rw [(hworkerAt other).2] at h
    split_ifs at h with hother
    · exact absurd h (OrderedSet.not_mem_empty ref)
    · exact ⟨hother, h⟩
  refine ⟨hstored, ⟨fun other => ?_, fun {other ref} h => ?_, fun {other ref} h => ?_,
    fun {other ref} hf h => ?_⟩, fun ref href => ?_⟩
  · rw [(hworkerAt other).1]
    exact hsound.rostered.worker_id other
  · rw [hnext]
    exact hsound.rostered.listed_lt (hlisted h).2
  · obtain ⟨hother, hold⟩ := hlisted h
    have hknows := hsound.rostered.knows hold
    rw [hobjects]
    split
    · exact (OrderedSet.mem_removeAll ..).mpr ⟨hknows, by simpa using hother⟩
    · exact hknows
  · have hold := (hfiled ref).mp hf
    rw [hobjects, if_pos (hsound.index.mem_activeSteps.mpr hold)] at h
    obtain ⟨hworker, hnot⟩ := (OrderedSet.mem_removeAll ..).mp h
    obtain ⟨hsome, hmem⟩ := hsound.rostered.lists hold hworker
    have hother : other ≠ worker := by simpa using hnot
    refine ⟨?_, ?_⟩
    · have hsome1 : (s1.activeWorkers.get? other).isSome = true := by
        rw [hsame.activeWorkers]
        exact hsome
      have hsome2 := hgreets.keeps other hsome1
      simp only [ht, updateWorkerAt, Dict.get?_set, hother, if_false]
      exact hsome2
    · rw [(hworkerAt other).2, if_neg hother]
      exact hmem
  · have hold := hsound.recorded ref (href.imp (hfiled ref).mp fun other h => (hlisted h).2)
    rw [hobjects]
    split
    · exact hold.congr rfl rfl rfl
    · exact hold

theorem Sound.disableWorker_extends (hsound : s.Sound) (now : Time) (worker : WorkerId) :
    Extends s (s.disableWorker now worker) := by
  obtain ⟨hsame, -⟩ := sameTables_removeWorkersFromSteps s [worker] false
  have hgreets := greets_ensureWorker (s.removeWorkersFromSteps [worker] false) now worker
  refine ⟨hgreets.saved.trans hsame.saved,
    fun ref => (filed_disableWorker hsound.index now worker ref).mpr, fun {other ref} h => ?_⟩
  unfold Scheduler.disableWorker at h
  rw [workerAt_updateWorkerAt] at h
  split at h
  · exact absurd h (OrderedSet.not_mem_empty ref)
  · rw [(hgreets.worker other).2.1, hsame.workerAt] at h
    exact .inl h

end Scheduler

/-- Requests that neither remove nor hand out steps nor use the state file. -/
def Request.isOrdinary : Request → Bool
  | .getWork _ | .prune | .dump | .load => false
  | _ => true

namespace Scheduler

variable {s : Scheduler} {env : Env} {moment : Moment} {request : Request}

/-- The handlers of the ordinary requests keep a sound state sound. -/
theorem Sound.serve_meets (hsound : s.Sound) (env : Env) (moment : Moment)
    (hordinary : request.isOrdinary = true) :
    Meets soundContract (serve env moment request) s := by
  have hgreeting : ∀ {update : Scheduler → Scheduler}, Greets s (update s) →
      Meets soundContract (change update) s := fun hgreets =>
    change_meets (hsound.greets hgreets) hgreets.extends
  have hdescribing : ∀ {update : Scheduler → Scheduler}, Describes s (update s) →
      Meets soundContract (change update) s := fun hdescribes =>
    change_meets (hsound.describes hdescribes) hdescribes.extends
  have hsetting : ∀ {update : Scheduler → Scheduler},
      (∃ batchers resources paused, update s =
        { s with stepBatchers := batchers, resources := resources, paused := paused }) →
      Meets soundContract (change update) s := by
    rintro update ⟨batchers, resources, paused, hupdate⟩
    have hindex : (update s).Indexed := by
      rw [hupdate]
      exact hsound.index.congr rfl rfl (fun _ => rfl) fun _ => rfl
    refine change_meets (hsound.reindex hindex ?_ ?_ ?_ ?_) ?_ <;> rw [hupdate]
    exact extends_of_same rfl (fun _ => rfl) (fun _ => rfl) fun _ => rfl
  cases request with
  | addStep args => exact reply_meets _ (hsound.addStep_meets env.config moment args)
  | countPending worker => exact reply_meets _ (hsound.countPending_meets moment worker)
  | ping worker => exact hgreeting (greets_updateWorker s moment.now worker false)
  | addWorker worker info => exact hgreeting (greets_addWorker s moment.now worker info)
  | markAsDone id => exact reply_meets _ (hsound.markAsDone_meets env.config moment.now id)
  | forgiveFailures id =>
      exact reply_meets _ (hsound.forgiveFailures_meets env.config moment.now id)
  | reEnableStep id => exact reply_meets _ (hsound.reEnableStep_meets env.config moment.now id)
  | disableWorker worker =>
      exact change_meets (hsound.disableWorker moment.now worker)
        (hsound.disableWorker_extends moment.now worker)
  | decreaseRunningStepResources id amounts =>
      exact reply_meets _ (hsound.decrease_meets id amounts)
  | setStepStatusMessage id message =>
      exact hdescribing (describes_reportToBatch s id (fun _ => rfl) fun _ => rfl)
  | setStepProgressPercentage id percentage =>
      exact hdescribing (describes_reportToBatch s id (fun _ => rfl) fun _ => rfl)
  | updateResource resource amount =>
      refine hsetting ⟨s.stepBatchers, (s.updateResource resource amount).resources, s.paused, ?_⟩
      unfold updateResource
      split <;> rfl
  | addStepBatcher | updateResources | pause | unpause => exact hsetting ⟨_, _, _, rfl⟩
  | getWork | prune | dump | load => cases hordinary

theorem exec_reply {α : Type} {program : SchedulerM α} (reply : α → Response) {t : Scheduler}
    {outcome : Except Raised α} (hrun : program.exec s = (outcome, t)) :
    (do let value ← program; pure (reply value) : SchedulerM Response).exec s =
      (outcome.map reply, t) := by
  cases outcome with
  | ok value => rw [exec_bind_ok hrun]; rfl
  | error error => rw [exec_bind_error hrun]; rfl

/-- What `prune` amounts to. -/
theorem Sound.after_prune (hsound : s.Sound) (env : Env) (moment : Moment) :
    Prunes env.config moment.now s (env.after s ⟨moment, .prune⟩) ∧
      env.outcome s ⟨moment, .prune⟩ = .ok .nothing := by
  obtain ⟨t, hrun, hprunes⟩ := prune_spec hsound.stored hsound.retriable env.config moment.now
  have hserve := exec_reply (fun _ => .nothing) hrun
  have hafter : env.after s ⟨moment, .prune⟩ = t := congrArg Prod.snd hserve
  have houtcome : env.outcome s ⟨moment, .prune⟩ = .ok .nothing := congrArg Prod.fst hserve
  exact ⟨hafter ▸ hprunes, houtcome⟩

/-- What `get_work` amounts to. -/
theorem Sound.after_getWork {args : GetWorkArgs} (hsound : s.Sound) (env : Env) (moment : Moment)
    (hlooks : env.LooksAtFiledSteps s moment args) :
    ∃ outcome, GetsWork env moment args s outcome (env.after s ⟨moment, .getWork args⟩) ∧
      env.outcome s ⟨moment, .getWork args⟩ = outcome.map .work := by
  obtain ⟨outcome, t, hrun, hworks⟩ := getWork_spec hsound.stored hsound.retriable hlooks
  have hserve := exec_reply .work hrun
  have hafter : env.after s ⟨moment, .getWork args⟩ = t := congrArg Prod.snd hserve
  have houtcome : env.outcome s ⟨moment, .getWork args⟩ = outcome.map .work :=
    congrArg Prod.fst hserve
  exact ⟨outcome, hafter ▸ hworks, houtcome⟩

/-- An enabled worker gets what the search for work returns. -/
theorem Sound.after_findWork {args : GetWorkArgs} (hsound : s.Sound) {env : Env} {moment : Moment}
    (henabled : ((env.received s moment args).workerAt args.worker).enabled = true)
    {outcome : Except Raised Reply} {t : Scheduler}
    (hrun : (findWork env moment args).exec (env.received s moment args) = (outcome, t)) :
    env.after s ⟨moment, .getWork args⟩ = t ∧
      env.outcome s ⟨moment, .getWork args⟩ = outcome.map .work := by
  have hwork := @exec_getWork env s moment args hsound.stored hsound.retriable
  rw [henabled] at hwork
  have hserve := exec_reply Response.work (hwork.trans hrun)
  exact ⟨congrArg Prod.snd hserve, congrArg Prod.fst hserve⟩

/-- The state after `get_work` for an enabled worker, if what it has chosen is in the table. -/
theorem Sound.after_getWork_picks {args : GetWorkArgs} (hsound : s.Sound) (env : Env)
    (moment : Moment)
    (henabled : ((env.received s moment args).workerAt args.worker).enabled = true)
    (hpicked : ∀ ref ∈ ((env.ranked s moment args).selectWork args env.config moment.now
      ((env.received s moment args).lostStep args)).picks, (env.ranked s moment args).Filed ref ∧
        ((env.ranked s moment args).stepAt ref).status ≠ .disabled) :
    (∃ error, (countPending moment args.worker).exec (env.ranked s moment args) =
        (.error error, env.after s ⟨moment, .getWork args⟩) ∧
      env.outcome s ⟨moment, .getWork args⟩ = .error error) ∨
    ∃ pending counted work, (countPending moment args.worker).exec
        (env.ranked s moment args) = (.ok pending, counted) ∧
      env.outcome s ⟨moment, .getWork args⟩ = .ok (.work ⟨pending, work⟩) ∧
      HandsOut env moment.now args.worker
        ((env.ranked s moment args).selectWork args env.config moment.now
          ((env.received s moment args).lostStep args)) counted work
        (env.after s ⟨moment, .getWork args⟩) ∧
      work = ((env.ranked s moment args).selectWork args env.config moment.now
        ((env.received s moment args).lostStep args)).work env counted := by
  rcases findWork_picks hsound.stored hsound.retriable hpicked with
    ⟨error, counted, hcount, hrun⟩ | ⟨pending, counted, work, t, hcount, hrun, hhands, hwork⟩
  · obtain ⟨hafter, houtcome⟩ := hsound.after_findWork henabled hrun
    exact .inl ⟨error, hafter ▸ hcount, houtcome⟩
  · obtain ⟨hafter, houtcome⟩ := hsound.after_findWork henabled hrun
    exact .inr ⟨pending, counted, work, hcount, houtcome, hafter ▸ hhands, hwork⟩

/-- The steps that it looks at are in the table. -/
theorem Sound.after_getWork_counts {args : GetWorkArgs} (hsound : s.Sound) (env : Env)
    (moment : Moment) (hlooks : env.LooksAtFiledSteps s moment args)
    (henabled : ((env.received s moment args).workerAt args.worker).enabled = true) :
    (∃ error, (countPending moment args.worker).exec (env.ranked s moment args) =
        (.error error, env.after s ⟨moment, .getWork args⟩) ∧
      env.outcome s ⟨moment, .getWork args⟩ = .error error) ∨
    ∃ pending counted work, (countPending moment args.worker).exec
        (env.ranked s moment args) = (.ok pending, counted) ∧
      env.outcome s ⟨moment, .getWork args⟩ = .ok (.work ⟨pending, work⟩) ∧
      HandsOut env moment.now args.worker
        ((env.ranked s moment args).selectWork args env.config moment.now
          ((env.received s moment args).lostStep args)) counted work
        (env.after s ⟨moment, .getWork args⟩) ∧
      work = ((env.ranked s moment args).selectWork args env.config moment.now
        ((env.received s moment args).lostStep args)).work env counted := by
  exact hsound.after_getWork_picks env moment henabled
    (picks_enabled hsound.stored hsound.retriable henabled hlooks)

/-- `get_work` for a disabled worker hands out nothing. -/
theorem Sound.after_getWork_disabled {args : GetWorkArgs} (hsound : s.Sound) (env : Env)
    (moment : Moment)
    (hdisabled : ¬((env.received s moment args).workerAt args.worker).enabled = true) :
    env.after s ⟨moment, .getWork args⟩ = env.received s moment args ∧
      env.outcome s ⟨moment, .getWork args⟩ = .ok (.work
        ⟨{ workerState := ((env.received s moment args).workerAt args.worker).state },
          .nothing⟩) := by
  have hwork := @exec_getWork env s moment args hsound.stored hsound.retriable
  rw [if_neg hdisabled] at hwork
  have hserve := exec_reply Response.work hwork
  exact ⟨congrArg Prod.snd hserve, congrArg Prod.fst hserve⟩

theorem saved_load (hlasting : Lasting Sound s) : s.load.saved = s.saved := by
  cases hsaved : s.saved with
  | none => simp only [Scheduler.load, hsaved]
  | some saved =>
      obtain ⟨u, -, rfl⟩ := hlasting.2 saved hsaved
      rw [(load_eq hsaved).2.2.2.2, hsaved]

theorem Sound.dump (hsound : s.Sound) : s.dump.Sound :=
  hsound.reindex (hsound.index.congr rfl rfl (fun _ => rfl) fun _ => rfl) rfl rfl rfl rfl

/-- The condition under which no removed step is handed out. -/
def HandsOutFiledSteps (env : Env) (s : Scheduler) (event : Event) : Prop :=
  match event.request with
  | .getWork args => env.LooksAtFiledSteps s event.moment args
  | _ => True

instance (env : Env) (s : Scheduler) (event : Event) :
    Decidable (HandsOutFiledSteps env s event) := by
  obtain ⟨moment, request⟩ := event
  induction request using Request.casesOn <;> dsimp only [HandsOutFiledSteps] <;> infer_instance

/-- One request keeps the state and the state file sound. -/
theorem Sound.after {event : Event} (hlasting : Lasting Sound s)
    (hhands : HandsOutFiledSteps env s event) :
    Lasting Sound (env.after s event) ∧
      ∀ error, env.outcome s event = .error error →
        error ≠ .statusBucket ∧ error ≠ .stepTable := by
  obtain ⟨moment, request⟩ := event
  have hkeeps : ∀ {t : Scheduler}, t.Sound → t.saved = s.saved → Lasting Sound t :=
    fun hsound hsaved => ⟨hsound, fun saved h => hlasting.2 saved (hsaved ▸ h)⟩
  by_cases hordinary : request.isOrdinary = true
  · obtain ⟨hsound, hextends, hallowed⟩ :=
      hlasting.1.serve_meets env moment hordinary
    exact ⟨hkeeps hsound hextends.saved, hallowed⟩
  · cases request with
    | getWork args =>
        obtain ⟨outcome, hworks, houtcome⟩ := hlasting.1.after_getWork _ _ hhands
        refine ⟨hkeeps (hlasting.1.getsWork hworks) hworks.saved, fun error herror => ?_⟩
        rw [houtcome] at herror
        cases outcome with
        | ok => cases herror
        | error =>
            cases herror
            exact hworks.allowed rfl
    | prune =>
        obtain ⟨hprunes, houtcome⟩ := hlasting.1.after_prune env moment
        refine ⟨hkeeps (hlasting.1.prunes hprunes) hprunes.saved, fun error herror => ?_⟩
        rw [houtcome] at herror
        cases herror
    | dump =>
        refine ⟨⟨hlasting.1.dump, fun saved h => ⟨s, hlasting.1, (Option.some.inj h).symm⟩⟩, ?_⟩
        intro error h
        cases h
    | load =>
        exact ⟨hkeeps (load_sound hlasting) (saved_load hlasting), fun error h => by cases h⟩
    | _ => exact absurd rfl hordinary

theorem initial_sound (resources : Resources) : Lasting Sound (Scheduler.initial resources) := by
  have hempty : ∀ ref, ¬(Scheduler.initial resources).Filed ref := fun ref h => by
    unfold Filed at h
    cases h
  refine ⟨⟨⟨⟨fun h => (by cases h), fun status id ref => ?_⟩, fun h => (by cases h)⟩, ?_, ?_⟩, ?_⟩
  · exact ⟨fun h => (by cases h), fun h => (by cases h.1)⟩
  · exact ⟨fun _ => rfl, fun h => absurd h (OrderedSet.not_mem_empty _),
      fun h => absurd h (OrderedSet.not_mem_empty _), fun h => absurd h (hempty _)⟩
  · rintro ref (h | ⟨worker, h⟩)
    · exact absurd h (hempty ref)
    · exact absurd h (OrderedSet.not_mem_empty ref)
  · intro saved h
    cases h

end Scheduler

end Trun
