import Trun.Scheduler.Sweeping

/-!
# What `get_work` does

Three things change the state: unclaimed batch steps go back to pending, workers
make themselves known, and the chosen step or batch is marked as running.
-/

namespace Trun

open Program

namespace Scheduler

variable {s t : Scheduler} {args : GetWorkArgs}

/-! ## Counting -/

/-- `count_pending` only makes workers known, and fails in lookups only. -/
def countingContract : Contract Raised Scheduler where
  inv _ := True
  rel := Greets
  allows error := error ≠ .statusBucket ∧ error ≠ .stepTable
  refl := .refl
  trans := .trans

theorem upstreamLoop_raises (s : Scheduler) (fuel : ℕ) (stack : List StepId)
    (table : UpstreamTable) {error : Raised}
    (hraises : s.upstreamLoop fuel stack table = .error error) : error = .recursionLimit := by
  induction fuel generalizing stack table with
  | zero =>
      cases stack with
      | nil => simp [upstreamLoop] at hraises
      | cons id rest =>
          simp only [upstreamLoop, Except.error.injEq] at hraises
          exact hraises.symm
  | succ fuel ih =>
      cases stack with
      | nil => simp [upstreamLoop] at hraises
      | cons id rest => exact ih _ _ hraises

theorem upstreamStatus_raises (s : Scheduler) (id : StepId) (table : UpstreamTable)
    {error : Raised} (hraises : s.upstreamStatus id table = .error error) :
    error = .recursionLimit ∨ error = .upstreamTable := by
  unfold upstreamStatus at hraises
  split at hraises
  · cases hraises
  · split at hraises
    · cases hraises
    · split at hraises
      · rename_i hloop
        cases hraises
        exact .inl (upstreamLoop_raises s _ _ _ hloop)
      · split at hraises
        · cases hraises
          exact .inr rfl
        · cases hraises

theorem liftExcept_meets {α : Type} {contract : Contract Raised Scheduler}
    {outcome : Except Raised α} (hinv : contract.inv s)
    (hraises : ∀ error, outcome = .error error → contract.allows error) :
    Meets contract (liftExcept outcome) s := by
  cases outcome with
  | ok value => exact .pure value hinv
  | error error => exact .throw hinv (hraises error rfl)

theorem countPendingSteps_raises (s : Scheduler) (worker : WorkerId) (refs : List Ref)
    (table : UpstreamTable) (reply : PendingReply) {error : Raised}
    (hraises : s.countPendingSteps worker refs table reply = .error error) :
    error = .recursionLimit ∨ error = .upstreamTable ∨ error = .emptySet := by
  induction refs generalizing table reply with
  | nil => simp [countPendingSteps] at hraises
  | cons ref rest ih =>
      unfold countPendingSteps at hraises
      dsimp only at hraises
      split at hraises
      · rename_i hupstream
        cases hraises
        exact (upstreamStatus_raises s _ _ hupstream).imp_right .inl
      · split at hraises
        · exact ih _ _ hraises
        · split at hraises
          · cases hraises
            exact .inr (.inr rfl)
          · exact ih _ _ hraises

/-- `count_pending` fulfils every contract that `get_worker` fulfils and that allows its
failing lookups. -/
theorem countPending_honours (contract : Contract Raised Scheduler)
    (hensure : ∀ (s : Scheduler) (now : Time) (worker : WorkerId), contract.inv s →
      contract.inv (s.ensureWorker now worker) ∧ contract.rel s (s.ensureWorker now worker))
    (hallows : ∀ error, error ≠ .statusBucket → error ≠ .stepTable → contract.allows error)
    (moment : Moment) (worker : WorkerId) :
    Honours contract (countPending moment worker) := by
  have hupstream : ∀ (s : Scheduler) (id : StepId) (table : UpstreamTable) (error : Raised),
      s.upstreamStatus id table = .error error → contract.allows error := by
    intro s id table error hraises
    rcases upstreamStatus_raises s id table hraises with rfl | rfl <;>
      exact hallows _ (by decide) (by decide)
  have hrunning : ∀ (now : Time) (refs : List Ref) (table : UpstreamTable),
      Honours contract (listRunning now refs table) := by
    intro now refs
    induction refs with
    | nil => exact fun _ _ hinv => .pure _ hinv
    | cons ref rest ih =>
        intro table s hinv
        unfold listRunning
        refine .get_bind (.bind (liftExcept_meets hinv (hupstream _ _ _)) ?_)
        rintro ⟨upstream, table'⟩ t - hinv'
        dsimp only
        refine .ite (fun _ => ih table' t hinv') fun _ => ?_
        split
        · exact .throw hinv' (hallows _ (by decide) (by decide))
        · rename_i owner _
          obtain ⟨hknown, hrel⟩ := hensure t now owner hinv'
          refine .bind (.modify hknown hrel) fun _ u _ hinv'' => ?_
          exact .get_bind (.bind (ih table' u hinv'') fun _ _ _ h => .pure _ h)
  intro s hinv
  obtain ⟨hknown, hrel⟩ := hensure s moment.now worker hinv
  unfold countPending
  refine .bind (.modify hknown hrel) fun _ t _ hinv' => ?_
  refine .get_bind (.bind (hrunning _ _ _ t hinv') ?_)
  rintro ⟨running, table⟩ u - hinv''
  refine .get_bind (liftExcept_meets hinv'' fun error hraises => ?_)
  rcases countPendingSteps_raises _ _ _ _ _ hraises with rfl | rfl | rfl <;>
    exact hallows _ (by decide) (by decide)

theorem countPending_meets (moment : Moment) (worker : WorkerId) (s : Scheduler) :
    Meets countingContract (countPending moment worker) s :=
  countPending_honours countingContract
    (fun s now worker _ => ⟨trivial, greets_ensureWorker s now worker⟩)
    (fun _ hbucket htable => ⟨hbucket, htable⟩) moment worker s trivial

/-! ## Choosing -/

/-- What the ranked loop may have chosen once it has seen a list of steps. -/
structure Selected (s : Scheduler) (args : GetWorkArgs) (used : Resources) (lost : Option Ref)
    (seen : List Ref) (selection : Selection) : Prop where
  /-- A lost step is taken as it is. -/
  taken : ∀ ref, lost = some ref → selection.bestStep = some ref ∧ selection.batchedSteps = [] ∧
    selection.batchedParams = none
  idle : selection.bestStep = none →
    selection.batchedSteps = [] ∧ selection.batchedParams = none
  /-- The first member of a batch is the chosen step. -/
  opened : selection.batchedParams ≠ none → ∃ best ∈ selection.batchedSteps,
    selection.bestStep = some best
  best : lost = none → ∀ ref, selection.bestStep = some ref →
    ref ∈ seen ∧ s.schedulable ref = true ∧
      s.hasResources (s.stepAt ref).resources used = true ∧
      ((args.assistant && (s.stepAt ref).runnable) ||
        decide (args.worker ∈ (s.stepAt ref).workers)) = true
  batched : ∀ ref ∈ selection.batchedSteps, s.schedulable ref = true ∧
    (s.stepAt ref).batchable = true ∧ ∃ best ∈ selection.batchedSteps,
      selection.bestStep = some best ∧
        (ref = best ∨ (s.stepAt ref).resources.sameItems (s.stepAt best).resources = true)
  sublist : selection.batchedSteps.Sublist seen

variable {used : Resources} {lost : Option Ref} {seen : List Ref} {selection : Selection}

theorem reserveRunning_keeps (s : Scheduler) (selection : Selection) (ref : Ref) :
    (s.reserveRunning selection ref).bestStep = selection.bestStep ∧
      (s.reserveRunning selection ref).batchedSteps = selection.batchedSteps ∧
      (s.reserveRunning selection ref).batchedParams = selection.batchedParams := by
  unfold reserveRunning
  dsimp only
  split
  · split <;> exact ⟨rfl, rfl, rfl⟩
  · exact ⟨rfl, rfl, rfl⟩

theorem reserveGreedily_keeps (s : Scheduler) (args : GetWorkArgs) (selection : Selection)
    (ref : Ref) :
    (s.reserveGreedily args selection ref).bestStep = selection.bestStep ∧
      (s.reserveGreedily args selection ref).batchedSteps = selection.batchedSteps ∧
      (s.reserveGreedily args selection ref).batchedParams = selection.batchedParams := by
  unfold reserveGreedily
  dsimp only
  split <;> exact ⟨rfl, rfl, rfl⟩

/-- What `chooseStep` writes. -/
theorem chooseStep_cases (s : Scheduler) (args : GetWorkArgs) (selection : Selection)
    (ref : Ref) :
    (s.chooseStep args selection ref).bestStep = some ref ∧
      (((s.chooseStep args selection ref).batchedSteps = selection.batchedSteps ∧
          ((s.chooseStep args selection ref).batchedParams = none ∨
            (s.chooseStep args selection ref).batchedParams = selection.batchedParams)) ∨
        ((s.stepAt ref).batchable = true ∧
          (s.chooseStep args selection ref).batchedSteps = selection.batchedSteps ++ [ref])) := by
  unfold chooseStep
  dsimp only
  split
  · rename_i hbatch
    simp only [Bool.and_eq_true] at hbatch
    split
    · exact ⟨rfl, .inr ⟨hbatch.2, rfl⟩⟩
    · exact ⟨rfl, .inl ⟨rfl, .inl rfl⟩⟩
  · exact ⟨rfl, .inl ⟨rfl, .inr rfl⟩⟩

/-- A choice is final. -/
theorem bestStep_kept {best : Ref} (hbest : selection.bestStep = some best) (refs : List Ref) :
    (refs.foldl (s.considerStep args used) selection).bestStep = some best := by
  induction refs generalizing selection with
  | nil => exact hbest
  | cons ref rest ih =>
      apply ih
      unfold considerStep
      rw [hbest]
      dsimp only
      unfold extendBatch
      split
      · exact hbest
      · split
        · exact hbest
        · exact hbest

theorem Selected.considerStep (hselected : Selected s args used lost seen selection) (ref : Ref) :
    Selected s args used lost (seen ++ [ref]) (s.considerStep args used selection ref) := by
  -- anything that leaves the choice alone keeps the invariant
  have hkeep : ∀ other : Selection, other.bestStep = selection.bestStep →
      other.batchedSteps = selection.batchedSteps →
      other.batchedParams = selection.batchedParams →
      Selected s args used lost (seen ++ [ref]) other := by
    intro other hbest hbatched hparams
    refine ⟨?_, ?_, ?_, ?_, ?_, ?_⟩
    · rw [hbest, hbatched, hparams]
      exact hselected.taken
    · rw [hbest, hbatched, hparams]
      exact hselected.idle
    · rw [hbest, hbatched, hparams]
      exact hselected.opened
    · intro hlost best h
      rw [hbest] at h
      obtain ⟨hmem, hrest⟩ := hselected.best hlost best h
      exact ⟨List.mem_append_left _ hmem, hrest⟩
    · rw [hbest, hbatched]
      exact hselected.batched
    · rw [hbatched]
      exact hselected.sublist.trans (List.sublist_append_left ..)
  unfold Scheduler.considerStep
  cases hchosen : selection.bestStep with
  | some best =>
      dsimp only
      unfold extendBatch
      cases hparams : selection.batchedParams with
      | none => exact hkeep selection rfl rfl rfl
      | some batched =>
          dsimp only
          split
          · rename_i hjoins
            simp only [joinsBatch, Bool.and_eq_true] at hjoins
            obtain ⟨-, ⟨⟨⟨⟨-, -⟩, hbatchable⟩, -⟩, hsame⟩, hschedulable⟩ := hjoins
            have hlost : lost = none := by
              cases hlost : lost with
              | none => rfl
              | some taken =>
                  rw [(hselected.taken taken hlost).2.2] at hparams
                  cases hparams
            obtain ⟨first, hfirst, hown⟩ := hselected.opened (by rw [hparams]; simp)
            rw [hchosen] at hown
            obtain rfl := Option.some.inj hown
            refine ⟨?_, ?_, ?_, ?_, ?_, ?_⟩
            · intro taken h
              rw [hlost] at h
              cases h
            · intro h
              cases hchosen ▸ h
            · exact fun _ => ⟨best, List.mem_append_left _ hfirst, hchosen⟩
            · intro _ other h
              obtain ⟨hmem, hrest⟩ := hselected.best hlost other h
              exact ⟨List.mem_append_left _ hmem, hrest⟩
            · intro other hother
              rcases List.mem_append.mp hother with hold | hnew
              · obtain ⟨hready, hbatch, first, hmem, hrest⟩ := hselected.batched other hold
                exact ⟨hready, hbatch, first, List.mem_append_left _ hmem, hrest⟩
              · obtain rfl := List.mem_singleton.mp hnew
                exact ⟨hschedulable, hbatchable, best, List.mem_append_left _ hfirst, hchosen,
                  .inr hsame⟩
            · exact hselected.sublist.append (List.Sublist.refl _)
          · exact hkeep selection rfl rfl rfl
  | none =>
      obtain ⟨hempty, hnone⟩ := hselected.idle hchosen
      obtain ⟨hrbest, hrbatched, hrparams⟩ := reserveRunning_keeps s selection ref
      have hlost : lost = none := by
        cases hlost : lost with
        | none => rfl
        | some taken =>
            rw [(hselected.taken taken hlost).1] at hchosen
            cases hchosen
      dsimp only
      split
      · rename_i hready
        split
        · rename_i hfits
          simp only [Bool.and_eq_true] at hready hfits
          obtain ⟨hbest, hcases⟩ := chooseStep_cases s args (s.reserveRunning selection ref) ref
          refine ⟨?_, ?_, ?_, ?_, ?_, ?_⟩
          · intro taken h
            rw [hlost] at h
            cases h
          · intro h
            rw [hbest] at h
            cases h
          · intro h
            rcases hcases with ⟨-, hparams | hparams⟩ | ⟨-, hbatched⟩
            · exact absurd hparams h
            · exact absurd (hparams.trans (hrparams.trans hnone)) h
            · exact ⟨ref, by rw [hbatched]; simp, hbest⟩
          · intro _ other h
            rw [hbest] at h
            obtain rfl := Option.some.inj h
            exact ⟨List.mem_append_right _ (List.mem_singleton_self _), hready.1, hfits.2, hfits.1⟩
          · rcases hcases with ⟨h, -⟩ | ⟨hbatchable, h⟩
            · rw [h, hrbatched, hempty]
              intro _ h
              cases h
            · rw [h, hrbatched, hempty, hbest]
              intro other hother
              obtain rfl := List.mem_singleton.mp hother
              exact ⟨hready.1, hbatchable, other, hother, rfl, .inl rfl⟩
          · rcases hcases with ⟨h, -⟩ | ⟨-, h⟩
            · rw [h, hrbatched, hempty]
              exact List.nil_sublist _
            · rw [h, hrbatched, hempty]
              exact List.sublist_append_right ..
        · obtain ⟨hgbest, hgbatched, hgparams⟩ :=
            reserveGreedily_keeps s args (s.reserveRunning selection ref) ref
          exact hkeep _ (hgbest.trans hrbest) (hgbatched.trans hrbatched)
            (hgparams.trans hrparams)
      · exact hkeep _ hrbest hrbatched hrparams

theorem Selected.foldl (refs : List Ref) (hselected : Selected s args used lost seen selection) :
    Selected s args used lost (seen ++ refs)
      (refs.foldl (s.considerStep args used) selection) := by
  induction refs generalizing seen selection with
  | nil => simpa using hselected
  | cons ref rest ih =>
      have hnext := ih (hselected.considerStep ref)
      simpa using hnext

/-- What the ranked loop of `get_work` chooses. -/
theorem selectWork_selected (s : Scheduler) (args : GetWorkArgs) (config : Config) (now : Time)
    (lost : Option Ref) :
    Selected s args (s.relevantSteps args config now).2.1 lost
      (s.sortByRankReverse (s.relevantSteps args config now).1)
      (s.selectWork args config now lost) := by
  have hstart : Selected s args (s.relevantSteps args config now).2.1 lost []
      { bestStep := lost, greedyWorkers := (s.relevantSteps args config now).2.2 } := by
    refine ⟨fun ref h => ⟨h, rfl, rfl⟩, fun _ => ⟨rfl, rfl⟩, fun h => absurd rfl h, ?_, ?_,
      List.Sublist.slnil⟩
    · intro hlost ref h
      dsimp only at h
      rw [hlost] at h
      cases h
    · intro ref h
      cases h
  have hloop := hstart.foldl (s.sortByRankReverse (s.relevantSteps args config now).1)
  rw [List.nil_append] at hloop
  exact hloop

theorem Indexed.nodup_relevantSteps (hindex : s.Indexed) (args : GetWorkArgs)
    (config : Config) (now : Time) : (s.relevantSteps args config now).1.Nodup := by
  have hactive : (s.activeStepsByStatus [.pending, .running]).Nodup :=
    hindex.nodup_activeStepsByStatus (by decide)
  unfold relevantSteps
  dsimp only
  split
  · exact List.nodup_nil
  · split
    · unfold Worker.getSteps
      dsimp only
      split
      · exact (OrderedSet.nodup _).filter _
      · exact hactive.filter _
    · exact hactive

theorem mem_sortByRankReverse (s : Scheduler) (refs : List Ref) (ref : Ref) :
    ref ∈ s.sortByRankReverse refs ↔ ref ∈ refs :=
  (List.perm_insertionSort _ refs).mem_iff

end Scheduler

/-! ## Handing out -/

/-- The steps that are marked as running. -/
def Selection.picks (selection : Selection) : List Ref :=
  if 1 < selection.batchedSteps.length then selection.batchedSteps
  else selection.bestStep.toList

namespace Step

/-- A step that is handed out on its own. -/
def handed (step : Step) (worker : WorkerId) (now : Time) : Step :=
  { step.withStatus now .running with
    workerRunning := some worker
    resourcesRunning := some step.resources
    resourcesShared := false
    timeRunning := some now }

/-- A step that is handed out as a member of a batch. -/
def reserved (step : Step) (worker : WorkerId) (now : Time) (batchId : BatchId) : Step :=
  { step.withStatus now .batchRunning with
    batchId := some batchId
    workerRunning := some worker
    resourcesRunning := some step.resources
    resourcesShared := true
    timeRunning := some now }

theorem withStatus_resources (step : Step) (now : Time) (newStatus : Status) :
    (step.withStatus now newStatus).resources = step.resources :=
  (congrArg Step.resources (step.withStatus_plan now newStatus) :)

section Handed

variable (step : Step) (worker : WorkerId) (now : Time) (batchId : BatchId)

@[simp] theorem handed_status : (step.handed worker now).status = .running :=
  step.withStatus_status now .running

@[simp] theorem handed_id : (step.handed worker now).id = step.id :=
  step.withStatus_id now .running

@[simp] theorem handed_workers : (step.handed worker now).workers = step.workers :=
  (congrArg Step.workers (step.withStatus_plan now .running) :)

@[simp] theorem reserved_status : (step.reserved worker now batchId).status = .batchRunning :=
  step.withStatus_status now .batchRunning

@[simp] theorem reserved_id : (step.reserved worker now batchId).id = step.id :=
  step.withStatus_id now .batchRunning

@[simp] theorem reserved_workers :
    (step.reserved worker now batchId).workers = step.workers :=
  (congrArg Step.workers (step.withStatus_plan now .batchRunning) :)

end Handed

end Step

namespace Scheduler

variable {s t : Scheduler}

/-- The state after some steps were handed out. -/
structure Hands (change : Step → Step) (refs : List Ref) (s t : Scheduler) : Prop where
  index : t.Indexed
  same : SameTables s t
  object : ∀ ref, t.stepAt ref = if ref ∈ refs then change (s.stepAt ref) else s.stepAt ref

theorem handOutStep_spec (hindex : s.Indexed) {best : Ref} (hfiled : s.Filed best)
    (hstatus : (s.stepAt best).status ≠ .disabled) (env : Env) (now : Time) (worker : WorkerId)
    (pending : PendingReply) :
    ∃ t, (handOutStep env now worker best pending).exec s =
        (.ok ⟨pending, .single (s.stepAt best).id (s.stepAt best).family (s.stepAt best).module
          (s.stepAt best).params⟩, t) ∧
      Hands (fun step => step.handed worker now) [best] s t := by
  have hkeeps : (s.stepAt best).releasesBatch .running = false := by simp [Step.releasesBatch]
  obtain ⟨t, hrun, htindex, htsame, htsteps⟩ :=
    Writes.setStatusUpTo hindex hfiled now .running (some env.config) (by simp) hkeeps 1
  rw [Step.settle_plain _ _ _ _ hstatus (by decide) (by decide) hkeeps] at htsteps
  set mark := fun step : Step =>
    { step with
      workerRunning := some worker
      resourcesRunning := some step.resources
      resourcesShared := false
      timeRunning := some now } with hmark
  have hbest : (t.updateStep best mark).stepAt best = (s.stepAt best).handed worker now := by
    rw [stepAt_updateStep, if_pos rfl, htsteps, Function.update_self, hmark]
    simp only [Step.handed, Step.withStatus_resources]
  have hparts : ∀ newStatus, ((s.stepAt best).withStatus now newStatus).family =
      (s.stepAt best).family ∧
      ((s.stepAt best).withStatus now newStatus).module = (s.stepAt best).module ∧
      ((s.stepAt best).withStatus now newStatus).params = (s.stepAt best).params := by
    intro newStatus
    unfold Step.withStatus
    split <;> exact ⟨rfl, rfl, rfl⟩
  refine ⟨t.updateStep best mark, ?_, htindex.updateStep rfl rfl,
    htsame.trans (sameTables_updateStep ..), fun ref => ?_⟩
  · unfold handOutStep
    refine (exec_bind_ok hrun).trans ?_
    rw [exec_modify_bind, exec_get_bind, ← hmark, hbest]
    simp only [Step.handed, Step.withStatus_id, (hparts _).1, (hparts _).2.1, (hparts _).2.2,
      exec_pure]
  · by_cases href : ref = best
    · subst href
      rw [hbest]
      simp
    · rw [stepAt_updateStep, if_neg href, htsteps, Function.update_of_ne href]
      simp [href]

theorem setBatchRunning_spec (hindex : s.Indexed) {ref : Ref} (hfiled : s.Filed ref)
    (hstatus : (s.stepAt ref).status = .pending) (now : Time) (batchId : BatchId)
    (worker : WorkerId) :
    Writes (setBatchRunning now batchId worker ref) s
      (Function.update s.stepAt ref ((s.stepAt ref).reserved worker now batchId)) := by
  have hkeeps : (s.stepAt ref).releasesBatch .batchRunning = false := by
    simp [Step.releasesBatch, hstatus]
  have hset := Writes.setStatusUpTo hindex hfiled now .batchRunning none (by simp) hkeeps 1
  rw [Step.settle_plain _ _ _ _ (by rw [hstatus]; decide) (by decide) (by decide) hkeeps] at hset
  refine hset.bind fun t htindex _ htsteps => ?_
  obtain ⟨u, hrun, huindex, husame, husteps⟩ := Writes.updateStep htindex ref (fun step =>
      { step with
        batchId := some batchId
        workerRunning := some worker
        resourcesRunning := some step.resources
        resourcesShared := true
        timeRunning := some now }) rfl rfl
  refine ⟨u, hrun, huindex, husame, fun other => ?_⟩
  rw [husteps]
  by_cases hother : other = ref
  · subst hother
    simp only [Function.update_self, htsteps, Step.reserved, Step.withStatus_resources]
  · simp [hother, htsteps]

theorem handOutBatch_spec (hindex : s.Indexed) {selection : Selection} (best : Ref)
    (hnodup : selection.batchedSteps.Nodup)
    (hfiled : ∀ ref ∈ selection.batchedSteps, s.Filed ref)
    (hstatus : ∀ ref ∈ selection.batchedSteps, (s.stepAt ref).status = .pending)
    (env : Env) (now : Time) (worker : WorkerId) (pending : PendingReply) :
    let stepIds := selection.batchedSteps.map fun ref => (s.stepAt ref).id
    ∃ t, (handOutBatch env now worker selection best pending).exec s =
        (.ok ⟨pending, .batch (env.batchId stepIds) stepIds (s.stepAt best).family
          (s.stepAt best).module (combineParams (s.stepAt best).params
            (selection.batchedParams.getD ∅))⟩, t) ∧
      Hands (fun step => step.reserved worker now (env.batchId stepIds))
        selection.batchedSteps s t := by
  intro stepIds
  obtain ⟨t, hrun, htindex, htsame, htsteps⟩ := Writes.forM hindex hnodup
    (setBatchRunning now (env.batchId stepIds) worker)
      (fun ref => (s.stepAt ref).reserved worker now (env.batchId stepIds))
    fun ref href t htindex htsame hstep => by
      have htfiled : t.Filed ref := by
        simpa [Filed, hstep, htsame.getStep] using hfiled ref href
      have hset := setBatchRunning_spec htindex htfiled (by rw [hstep]; exact hstatus ref href)
        now (env.batchId stepIds) worker
      rwa [hstep] at hset
  have hparts : (t.stepAt best).family = (s.stepAt best).family ∧
      (t.stepAt best).module = (s.stepAt best).module ∧
      (t.stepAt best).params = (s.stepAt best).params := by
    rw [htsteps]
    dsimp only
    split
    · have hplan := Step.withStatus_plan (s.stepAt best) now .batchRunning
      exact ⟨(congrArg Step.family hplan :), (congrArg Step.module hplan :),
        (congrArg Step.params hplan :)⟩
    · exact ⟨rfl, rfl, rfl⟩
  refine ⟨t, ?_, htindex, htsame, htsteps⟩
  unfold handOutBatch
  rw [exec_get_bind]
  refine (exec_bind_ok hrun).trans ?_
  rw [exec_get_bind]
  dsimp only
  rw [hparts.1, hparts.2.1, hparts.2.2]
  rfl

end Scheduler

/-- The work that `get_work` reports for its choice. -/
def Selection.work (selection : Selection) (env : Env) (s : Scheduler) : Work :=
  match selection.bestStep with
  | none => .nothing
  | some best =>
    let step := s.stepAt best
    let stepIds := selection.batchedSteps.map fun ref => (s.stepAt ref).id
    if 1 < selection.batchedSteps.length then
      .batch (env.batchId stepIds) stepIds step.family step.module
        (combineParams step.params (selection.batchedParams.getD ∅))
    else .single step.id step.family step.module step.params

namespace Scheduler

variable {s t : Scheduler} {args : GetWorkArgs}

/-! ## Putting unclaimed steps back -/

/-- `get_work` puts the step back: its worker says what it runs, and started no
batch with it. -/
def Orphaned (s : Scheduler) (args : GetWorkArgs) (ref : Ref) : Prop :=
  args.currentSteps ≠ none ∧ ref ∈ s.orphanedSteps args.worker

instance (s : Scheduler) (args : GetWorkArgs) (ref : Ref) : Decidable (s.Orphaned args ref) := by
  unfold Orphaned; infer_instance

theorem Indexed.mem_orphanedSteps (hindex : s.Indexed) {worker : WorkerId} {ref : Ref} :
    ref ∈ s.orphanedSteps worker ↔ s.Filed ref ∧ (s.stepAt ref).status = .batchRunning ∧
      (s.stepAt ref).workerRunning = some worker ∧
      ∀ other, s.Filed other → (s.stepAt other).status = .running →
        (s.stepAt other).workerRunning = some worker →
        (s.stepAt other).batchId ≠ (s.stepAt ref).batchId := by
  simp only [orphanedSteps, List.mem_filter, hindex.mem_activeStepsByStatus, List.mem_singleton,
    decide_eq_true_eq, List.mem_map, not_exists, not_and, and_assoc]

/-- The state that the ranked loop looks at. -/
structure Prepares (now : Time) (args : GetWorkArgs) (s t : Scheduler) : Prop where
  index : t.Indexed
  greeted : ∃ u, Greets s u ∧ SameTables u t
  object : ∀ ref, t.stepAt ref =
    if s.Orphaned args ref then (s.stepAt ref).withStatus now .pending else s.stepAt ref

theorem Prepares.getStep {now : Time} (hprepares : Prepares now args s t) (id : StepId) :
    t.getStep id = s.getStep id := by
  obtain ⟨u, hgreets, hsame⟩ := hprepares.greeted
  rw [hsame.getStep, hgreets.getStep]

theorem Prepares.filed {now : Time} (hprepares : Prepares now args s t) (ref : Ref) :
    t.Filed ref ↔ s.Filed ref := by
  unfold Filed
  rw [hprepares.getStep, hprepares.object]
  split
  · rw [Step.withStatus_id]
  · rfl

theorem Prepares.stored {now : Time} (hprepares : Prepares now args s t) (hstored : s.Stored) :
    t.Stored := by
  obtain ⟨u, hgreets, hsame⟩ := hprepares.greeted
  exact (hgreets.stored hstored).of_same hprepares.index hsame

theorem resetOrphaned_spec (hindex : s.Indexed) (now : Time) (worker : WorkerId) :
    Writes (resetOrphanedBatchRunningSteps now worker) s fun ref =>
      if ref ∈ s.orphanedSteps worker then (s.stepAt ref).withStatus now .pending
      else s.stepAt ref := by
  have hnodup : (s.orphanedSteps worker).Nodup := by
    have hbucket := hindex.nodup_bucket .batchRunning
    refine List.Nodup.filter _ ?_
    simpa [activeStepsByStatus] using hbucket
  have hloop := Writes.forM hindex hnodup (fun ref => setStatus now ref .pending none)
    (fun ref => (s.stepAt ref).withStatus now .pending)
    fun ref href t htindex htsame hstep => by
      obtain ⟨hfiled, hstatus, -⟩ := hindex.mem_orphanedSteps.mp href
      have htfiled : t.Filed ref := by
        simpa [Filed, hstep, htsame.getStep] using hfiled
      have hkeeps : (t.stepAt ref).releasesBatch .pending = false := by
        simp [Step.releasesBatch, hstep, hstatus]
      have hset := Writes.setStatusUpTo htindex htfiled now .pending none (by simp) hkeeps 1
      rwa [Step.settle_plain _ _ _ _ (by rw [hstep, hstatus]; decide) (by decide) (by decide)
        hkeeps, hstep] at hset
  unfold Writes resetOrphanedBatchRunningSteps
  rw [exec_get_bind]
  exact hloop

theorem Greets.lostStep (hgreets : Greets s t) (args : GetWorkArgs) :
    t.lostStep args = s.lostStep args := by
  obtain ⟨workers, rfl⟩ := hgreets.eq_with
  rfl

theorem Greets.orphanedSteps (hgreets : Greets s t) (worker : WorkerId) :
    t.orphanedSteps worker = s.orphanedSteps worker := by
  obtain ⟨workers, rfl⟩ := hgreets.eq_with
  rfl

/-- The worker is known as an assistant where it says so. -/
def noted (s : Scheduler) (args : GetWorkArgs) : Scheduler :=
  if args.assistant then
    s.updateWorkerAt args.worker fun worker =>
      { worker with info := worker.info.update { assistant := some true } }
  else s

theorem greets_noted (s : Scheduler) (args : GetWorkArgs) : Greets s (s.noted args) := by
  unfold noted
  split
  · exact greets_updateWorkerAt s args.worker fun _ => ⟨rfl, rfl, rfl⟩
  · exact .refl s

theorem prepareWork_noted (hstored : s.Stored) (now : Time) (args : GetWorkArgs) :
    ∃ t, (prepareWork now args).exec s = (.ok (s.lostStep args), t) ∧
      Prepares now args s t ∧ SameTables (s.noted args) t := by
  have hgreets := greets_noted s args
  set u := s.noted args with hu
  have hustored := hgreets.stored hstored
  rw [← hgreets.lostStep]
  unfold prepareWork
  rw [exec_modify_bind, exec_get_bind]
  dsimp only
  cases hcurrent : args.currentSteps with
  | none =>
      refine ⟨u, rfl, ⟨hustored.index, ⟨u, hgreets, .refl u⟩, fun ref => ?_⟩, .refl u⟩
      have hnot : ¬s.Orphaned args ref := fun h => h.1 hcurrent
      rw [if_neg hnot, hgreets.stepAt]
  | some current =>
      obtain ⟨t, hrun, htindex, htsame, htsteps⟩ :=
        resetOrphaned_spec hustored.index now args.worker
      refine ⟨t, exec_bind_ok hrun, ⟨htindex, ⟨u, hgreets, htsame⟩, fun ref => ?_⟩, htsame⟩
      have horphan : s.Orphaned args ref ↔ ref ∈ u.orphanedSteps args.worker := by
        rw [hgreets.orphanedSteps]
        exact ⟨fun h => h.2, fun h => ⟨by simp [hcurrent], h⟩⟩
      rw [htsteps]
      simp only [horphan, hgreets.stepAt]

/-! ## The whole of `get_work` -/

theorem lostStep_cases {ref : Ref} (hlost : s.lostStep args = some ref) :
    ∃ current, args.currentSteps = some current ∧ ref ∈ s.activeStepsByStatus [.running] ∧
      (s.stepAt ref).workerRunning = some args.worker ∧ (s.stepAt ref).id ∉ current := by
  unfold lostStep at hlost
  cases hcurrent : args.currentSteps with
  | none => simp [hcurrent] at hlost
  | some current =>
      simp only [hcurrent] at hlost
      have hmem := List.mem_of_getLast? hlost
      simp only [sortByRank, List.mem_filter, (List.perm_insertionSort _ _).mem_iff,
        decide_eq_true_eq] at hmem
      exact ⟨current, rfl, hmem.1, hmem.2.1, hmem.2.2⟩

/-- The beginning of `get_work`. -/
structure Receives (env : Env) (moment : Moment) (s t : Scheduler) : Prop where
  prunes : env.config.pruneOnGetWork = true →
    ∃ u, Prunes env.config moment.now s u ∧ Greets u t
  greets : env.config.pruneOnGetWork = false → Greets s t

/-- What the choice amounts to. -/
inductive HandsOut (env : Env) (now : Time) (worker : WorkerId) (selection : Selection)
    (s : Scheduler) : Work → Scheduler → Prop where
  | nothing (hbest : selection.bestStep = none) :
      HandsOut env now worker selection s .nothing s
  | single {best : Ref} {t : Scheduler} (hbest : selection.bestStep = some best)
      (hsize : ¬1 < selection.batchedSteps.length)
      (hands : Hands (fun step => step.handed worker now) [best] s t) :
      HandsOut env now worker selection s
        (.single (s.stepAt best).id (s.stepAt best).family (s.stepAt best).module
          (s.stepAt best).params) t
  | batch {stepIds : List StepId} {t : Scheduler} {family : Family} {module : Option String}
      {params : Dict String ParamValue} (hsize : 1 < selection.batchedSteps.length)
      (hids : stepIds = selection.batchedSteps.map fun ref => (s.stepAt ref).id)
      (hands : Hands (fun step => step.reserved worker now (env.batchId stepIds))
        selection.batchedSteps s t) :
      HandsOut env now worker selection s
        (.batch (env.batchId stepIds) stepIds family module params) t

theorem handOut_spec (hindex : s.Indexed) {selection : Selection}
    (hnodup : selection.batchedSteps.Nodup)
    (hpicks : ∀ ref ∈ selection.picks, s.Filed ref ∧ (s.stepAt ref).status ≠ .disabled)
    (hbatch : ∀ ref ∈ selection.batchedSteps, (s.stepAt ref).status = .pending)
    (env : Env) (now : Time) (worker : WorkerId) (pending : PendingReply) :
    ∃ work t, (handOut env now worker selection pending).exec s = (.ok ⟨pending, work⟩, t) ∧
      HandsOut env now worker selection s work t ∧ work = selection.work env s := by
  unfold handOut Selection.work
  cases hbest : selection.bestStep with
  | none => exact ⟨.nothing, s, rfl, .nothing hbest, rfl⟩
  | some best =>
      dsimp only
      by_cases hsize : 1 < selection.batchedSteps.length
      · rw [if_pos hsize]
        have hpicks' : selection.picks = selection.batchedSteps := if_pos hsize
        rw [hpicks'] at hpicks
        obtain ⟨t, hrun, hands⟩ := handOutBatch_spec hindex best hnodup
          (fun ref href => (hpicks ref href).1) hbatch env now worker pending
        exact ⟨_, t, hrun, .batch hsize rfl hands, (if_pos hsize).symm⟩
      · rw [if_neg hsize]
        have hmem : best ∈ selection.picks := by
          unfold Selection.picks
          rw [if_neg hsize, hbest]
          simp
        obtain ⟨t, hrun, hands⟩ := handOutStep_spec hindex (hpicks best hmem).1
          (hpicks best hmem).2 env now worker pending
        exact ⟨_, t, hrun, .single hbest hsize hands, (if_neg hsize).symm⟩

end Scheduler

namespace Env

variable (env : Env) (s : Scheduler) (moment : Moment) (args : GetWorkArgs)

/-- The state in which `get_work` turns to its worker. -/
def received : Scheduler := (receiveRequest env moment args).final s

/-- The state in which `get_work` ranks the steps. -/
def ranked : Scheduler := (prepareWork moment.now args).final (env.received s moment args)

/-- Every pending step that `get_work` looks at is still the one in the table. -/
def LooksAtFiledSteps : Prop :=
  ((env.received s moment args).workerAt args.worker).enabled = true →
    ∀ ref ∈ ((env.ranked s moment args).relevantSteps args env.config moment.now).1,
      ((env.ranked s moment args).stepAt ref).status = .pending →
        (env.ranked s moment args).Filed ref

instance : Decidable (env.LooksAtFiledSteps s moment args) := by
  unfold LooksAtFiledSteps; infer_instance

end Env

namespace Scheduler

variable {env : Env} {s t : Scheduler} {moment : Moment} {args : GetWorkArgs}

theorem receiveRequest_spec (env : Env) (moment : Moment) (args : GetWorkArgs) (hstored : s.Stored)
    (hretry : s.Retriable) :
    (receiveRequest env moment args).exec s = (.ok (), env.received s moment args) ∧
      Receives env moment s (env.received s moment args) ∧
      (env.received s moment args).Stored ∧ (env.received s moment args).Retriable := by
  have hshape : ∀ t, (receiveRequest env moment args).exec s = (.ok (), t) →
      Receives env moment s t → t.Stored → t.Retriable →
      (receiveRequest env moment args).exec s = (.ok (), env.received s moment args) ∧
        Receives env moment s (env.received s moment args) ∧
        (env.received s moment args).Stored ∧ (env.received s moment args).Retriable := by
    intro t hrun hreceives htstored htretry
    have heq : env.received s moment args = t := by
      simp only [Env.received, Program.final, hrun]
    rw [heq]
    exact ⟨hrun, hreceives, htstored, htretry⟩
  have hgreet := fun u : Scheduler => greets_updateWorker u moment.now args.worker true
  unfold receiveRequest at hshape
  by_cases hprune : env.config.pruneOnGetWork = true
  · obtain ⟨u, hrun, hprunes⟩ := prune_spec hstored hretry env.config moment.now
    refine hshape (u.updateWorker moment.now args.worker true) ?_ ?_ ?_ ?_
    · rw [if_pos hprune]
      exact (exec_bind_ok hrun).trans (exec_modify ..)
    · exact ⟨fun _ => ⟨u, hprunes, hgreet u⟩, fun h => by rw [hprune] at h; cases h⟩
    · exact (hgreet u).stored hprunes.stored
    · exact (hgreet u).retriable (hprunes.retriable hretry)
  · refine hshape (s.updateWorker moment.now args.worker true) ?_ ?_ ?_ ?_
    · rw [if_neg hprune]
      rfl
    · exact ⟨fun h => absurd h hprune, fun _ => hgreet s⟩
    · exact (hgreet s).stored hstored
    · exact (hgreet s).retriable hretry

theorem ranked_noted (env : Env) (moment : Moment) (args : GetWorkArgs) (hstored : s.Stored)
    (hretry : s.Retriable) :
    (prepareWork moment.now args).exec (env.received s moment args) =
        (.ok ((env.received s moment args).lostStep args), env.ranked s moment args) ∧
      Prepares moment.now args (env.received s moment args) (env.ranked s moment args) ∧
      SameTables ((env.received s moment args).noted args) (env.ranked s moment args) := by
  obtain ⟨-, -, hrstored, -⟩ := receiveRequest_spec env moment args hstored hretry
  obtain ⟨t, hrun, hprepares, hsame⟩ := prepareWork_noted hrstored moment.now args
  have heq : env.ranked s moment args = t := by
    simp only [Env.ranked, Program.final, hrun]
  rw [heq]
  exact ⟨hrun, hprepares, hsame⟩

theorem prepares_ranked (env : Env) (moment : Moment) (args : GetWorkArgs) (hstored : s.Stored)
    (hretry : s.Retriable) :
    (prepareWork moment.now args).exec (env.received s moment args) =
        (.ok ((env.received s moment args).lostStep args), env.ranked s moment args) ∧
      Prepares moment.now args (env.received s moment args) (env.ranked s moment args) := by
  obtain ⟨hrun, hprepares, -⟩ := ranked_noted env moment args hstored hretry
  exact ⟨hrun, hprepares⟩

/-- What `get_work` picks is in the table, and pending or a run the worker lost. -/
theorem picks_filed (env : Env) (moment : Moment) (args : GetWorkArgs) (ref : Ref)
    (hstored : s.Stored) (hretry : s.Retriable)
    (henabled : ((env.received s moment args).workerAt args.worker).enabled = true)
    (hlooks : env.LooksAtFiledSteps s moment args)
    (hpick : ref ∈ ((env.ranked s moment args).selectWork args env.config moment.now
      ((env.received s moment args).lostStep args)).picks) :
    (env.ranked s moment args).Filed ref ∧
      (((env.ranked s moment args).stepAt ref).status = .pending ∨
        ((env.received s moment args).lostStep args = some ref ∧
          ((env.ranked s moment args).stepAt ref).status = .running ∧
          ((env.ranked s moment args).stepAt ref).workerRunning = some args.worker)) := by
  obtain ⟨-, -, hrstored, -⟩ := receiveRequest_spec env moment args hstored hretry
  obtain ⟨-, hprepares⟩ := prepares_ranked env moment args hstored hretry
  set received := env.received s moment args with hreceived
  set ranked := env.ranked s moment args with hranked
  have hselected := selectWork_selected ranked args env.config moment.now
    (received.lostStep args)
  set selection := ranked.selectWork args env.config moment.now (received.lostStep args)
  have hrelevant : ∀ ref ∈ ranked.sortByRankReverse (ranked.relevantSteps args env.config
      moment.now).1, ranked.schedulable ref = true →
      ranked.Filed ref ∧ (ranked.stepAt ref).status = .pending := by
    intro ref href hready
    have hpending : (ranked.stepAt ref).status = .pending := by
      simp only [schedulable, Bool.and_eq_true, beq_iff_eq] at hready
      exact hready.1
    rw [mem_sortByRankReverse] at href
    exact ⟨hlooks henabled ref href hpending, hpending⟩
  have hbatched : ∀ ref ∈ selection.batchedSteps,
      ranked.Filed ref ∧ (ranked.stepAt ref).status = .pending := fun ref href =>
    hrelevant ref (hselected.sublist.subset href) (hselected.batched ref href).1
  by_cases hsize : 1 < selection.batchedSteps.length
  · rw [Selection.picks, if_pos hsize] at hpick
    exact ⟨(hbatched ref hpick).1, .inl (hbatched ref hpick).2⟩
  · rw [Selection.picks, if_neg hsize, Option.mem_toList] at hpick
    cases hlost : received.lostStep args with
    | none =>
        obtain ⟨hmem, hready, -⟩ := hselected.best hlost ref hpick
        exact ⟨(hrelevant ref hmem hready).1, .inl (hrelevant ref hmem hready).2⟩
    | some taken =>
        obtain ⟨hbest, -⟩ := hselected.taken taken hlost
        obtain rfl : taken = ref := Option.some.inj (hbest.symm.trans hpick)
        obtain ⟨current, -, hactive, howner, -⟩ := lostStep_cases hlost
        obtain ⟨hfiled, hstatus⟩ := hrstored.index.mem_activeStepsByStatus.mp hactive
        have hrunning := List.mem_singleton.mp hstatus
        have hkept : ranked.stepAt taken = received.stepAt taken := by
          rw [hprepares.object, if_neg]
          rintro ⟨-, horphan⟩
          rw [(hrstored.index.mem_orphanedSteps.mp horphan).2.1] at hrunning
          cases hrunning
        rw [hkept]
        exact ⟨(hprepares.filed taken).mpr hfiled, .inr ⟨rfl, hrunning, howner⟩⟩

/-- What `get_work` picks is in the table, and not disabled. -/
theorem picks_enabled (hstored : s.Stored) (hretry : s.Retriable)
    (henabled : ((env.received s moment args).workerAt args.worker).enabled = true)
    (hlooks : env.LooksAtFiledSteps s moment args) (ref : Ref)
    (hpick : ref ∈ ((env.ranked s moment args).selectWork args env.config moment.now
      ((env.received s moment args).lostStep args)).picks) :
    (env.ranked s moment args).Filed ref ∧
      ((env.ranked s moment args).stepAt ref).status ≠ .disabled := by
  obtain ⟨hfiled, hstatus⟩ :=
    picks_filed env moment args ref hstored hretry henabled hlooks hpick
  refine ⟨hfiled, ?_⟩
  rcases hstatus with h | ⟨-, h, -⟩ <;> rw [h] <;> decide

/-- What one call of `get_work` does, and what it returns or raises. -/
inductive GetsWork (env : Env) (moment : Moment) (args : GetWorkArgs) (s : Scheduler) :
    Except Raised Reply → Scheduler → Prop where
  | refused (hreceives : Receives env moment s (env.received s moment args))
      (hdisabled : ((env.received s moment args).workerAt args.worker).enabled = false) :
      GetsWork env moment args s
        (.ok ⟨{ workerState := ((env.received s moment args).workerAt args.worker).state },
          .nothing⟩) (env.received s moment args)
  | failed {counted : Scheduler} {error : Raised}
      (hreceives : Receives env moment s (env.received s moment args))
      (henabled : ((env.received s moment args).workerAt args.worker).enabled = true)
      (hprepares : Prepares moment.now args (env.received s moment args)
        (env.ranked s moment args))
      (hgreets : Greets (env.ranked s moment args) counted)
      (hraises : (countPending moment args.worker).exec (env.ranked s moment args) =
        (.error error, counted)) :
      GetsWork env moment args s (.error error) counted
  | served {counted t : Scheduler} {pending : PendingReply} {work : Work}
      (hreceives : Receives env moment s (env.received s moment args))
      (henabled : ((env.received s moment args).workerAt args.worker).enabled = true)
      (hprepares : Prepares moment.now args (env.received s moment args)
        (env.ranked s moment args))
      (hgreets : Greets (env.ranked s moment args) counted)
      (hhands : HandsOut env moment.now args.worker
        ((env.ranked s moment args).selectWork args env.config moment.now
          ((env.received s moment args).lostStep args)) counted work t) :
      GetsWork env moment args s (.ok ⟨pending, work⟩) t

/-- The beginning of `get_work`, up to whether the worker is enabled. -/
theorem exec_getWork (hstored : s.Stored) (hretry : s.Retriable) :
    (getWork env moment args).exec s =
      (if ((env.received s moment args).workerAt args.worker).enabled then
          findWork env moment args
        else pure
          ⟨{ workerState := ((env.received s moment args).workerAt args.worker).state },
            .nothing⟩ : SchedulerM Reply).exec (env.received s moment args) := by
  obtain ⟨hrun, -⟩ := receiveRequest_spec env moment args hstored hretry
  unfold getWork
  refine (exec_bind_ok hrun).trans ?_
  rw [exec_get_bind]

/-- `get_work` for an enabled worker chooses, counts and hands out. -/
theorem exec_findWork (hstored : s.Stored) (hretry : s.Retriable) :
    (findWork env moment args).exec (env.received s moment args) = (do
      let pending ← countPending moment args.worker
      handOut env moment.now args.worker
        ((env.ranked s moment args).selectWork args env.config moment.now
          ((env.received s moment args).lostStep args)) pending : SchedulerM Reply).exec
        (env.ranked s moment args) := by
  obtain ⟨hprepare, -⟩ := prepares_ranked env moment args hstored hretry
  unfold findWork
  refine (exec_bind_ok hprepare).trans ?_
  rw [exec_get_bind]

/-- It counts first, and hands out what it has chosen in the state that this leaves, if that is
in the table. -/
theorem findWork_picks (hstored : s.Stored) (hretry : s.Retriable)
    (hpicked : ∀ ref ∈ ((env.ranked s moment args).selectWork args env.config moment.now
      ((env.received s moment args).lostStep args)).picks, (env.ranked s moment args).Filed ref ∧
        ((env.ranked s moment args).stepAt ref).status ≠ .disabled) :
    (∃ error counted, (countPending moment args.worker).exec (env.ranked s moment args) =
        (.error error, counted) ∧
      (findWork env moment args).exec (env.received s moment args) = (.error error, counted)) ∨
    ∃ pending counted work t, (countPending moment args.worker).exec
        (env.ranked s moment args) = (.ok pending, counted) ∧
      (findWork env moment args).exec (env.received s moment args) = (.ok ⟨pending, work⟩, t) ∧
      HandsOut env moment.now args.worker
        ((env.ranked s moment args).selectWork args env.config moment.now
          ((env.received s moment args).lostStep args)) counted work t ∧
      work = ((env.ranked s moment args).selectWork args env.config moment.now
        ((env.received s moment args).lostStep args)).work env counted := by
  obtain ⟨-, -, hrstored, -⟩ := receiveRequest_spec env moment args hstored hretry
  obtain ⟨-, hprepares⟩ := prepares_ranked env moment args hstored hretry
  rw [exec_findWork hstored hretry]
  set received := env.received s moment args with hreceived
  set ranked := env.ranked s moment args with hranked
  set selection := ranked.selectWork args env.config moment.now (received.lostStep args)
    with hselection
  obtain ⟨-, hgreets, -⟩ := countPending_meets moment args.worker ranked
  rcases hcount : (countPending moment args.worker).exec ranked with
    ⟨error | pending, counted⟩
  · exact .inl ⟨error, counted, rfl, exec_bind_error hcount⟩
  · simp only [Program.final, hcount] at hgreets
    replace hgreets : Greets ranked counted := hgreets
    have hselected := selectWork_selected ranked args env.config moment.now
      (received.lostStep args)
    rw [← hselection] at hselected
    have hranked' := hprepares.stored hrstored
    have hnodup : selection.batchedSteps.Nodup := by
      refine hselected.sublist.nodup ((List.perm_insertionSort _ _).nodup_iff.mpr ?_)
      exact hranked'.index.nodup_relevantSteps args env.config moment.now
    obtain ⟨work, t, hhand, hhands, hwork⟩ := handOut_spec (hgreets.stored hranked').index hnodup
      (fun ref href => by
        rw [hgreets.filed, hgreets.stepAt]
        exact hpicked ref href)
      (fun ref href => by
        rw [hgreets.stepAt]
        have hready := (hselected.batched ref href).1
        simp only [schedulable, Bool.and_eq_true, beq_iff_eq] at hready
        exact hready.1) env moment.now args.worker pending
    exact .inr ⟨pending, counted, work, t, rfl, (exec_bind_ok hcount).trans hhand, hhands,
      hwork⟩

/-- The steps that `get_work` looks at are in the table. -/
theorem findWork_counts (hstored : s.Stored) (hretry : s.Retriable)
    (henabled : ((env.received s moment args).workerAt args.worker).enabled = true)
    (hlooks : env.LooksAtFiledSteps s moment args) :
    (∃ error counted, (countPending moment args.worker).exec (env.ranked s moment args) =
        (.error error, counted) ∧
      (findWork env moment args).exec (env.received s moment args) = (.error error, counted)) ∨
    ∃ pending counted work t, (countPending moment args.worker).exec
        (env.ranked s moment args) = (.ok pending, counted) ∧
      (findWork env moment args).exec (env.received s moment args) = (.ok ⟨pending, work⟩, t) ∧
      HandsOut env moment.now args.worker
        ((env.ranked s moment args).selectWork args env.config moment.now
          ((env.received s moment args).lostStep args)) counted work t ∧
      work = ((env.ranked s moment args).selectWork args env.config moment.now
        ((env.received s moment args).lostStep args)).work env counted := by
  exact findWork_picks hstored hretry (picks_enabled hstored hretry henabled hlooks)

theorem getWork_spec (hstored : s.Stored) (hretry : s.Retriable)
    (hlooks : env.LooksAtFiledSteps s moment args) :
    ∃ outcome t, (getWork env moment args).exec s = (outcome, t) ∧
      GetsWork env moment args s outcome t := by
  obtain ⟨-, hreceives, -, -⟩ := receiveRequest_spec env moment args hstored hretry
  obtain ⟨-, hprepares⟩ := prepares_ranked env moment args hstored hretry
  have hcounts : ∀ {outcome counted}, (countPending moment args.worker).exec
      (env.ranked s moment args) = (outcome, counted) →
      Greets (env.ranked s moment args) counted := by
    intro outcome counted hcount
    obtain ⟨-, hgreets, -⟩ := countPending_meets moment args.worker (env.ranked s moment args)
    simp only [Program.final, hcount] at hgreets
    exact hgreets
  rw [exec_getWork hstored hretry]
  cases henabled : ((env.received s moment args).workerAt args.worker).enabled with
  | false => exact ⟨_, _, rfl, .refused hreceives henabled⟩
  | true =>
      rw [if_pos rfl]
      rcases findWork_counts hstored hretry henabled hlooks with
        ⟨error, counted, hcount, hrun⟩ | ⟨pending, counted, work, t, hcount, hrun, hhands, -⟩
      · exact ⟨_, _, hrun, .failed hreceives henabled hprepares (hcounts hcount) hcount⟩
      · exact ⟨_, _, hrun, .served hreceives henabled hprepares (hcounts hcount) hhands⟩

end Scheduler

end Trun
