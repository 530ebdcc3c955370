import Trun.Summary.Counting
import Trun.Summary.Upstream
import Trun.Worker.Executing

/-!
# What a run is summed up to

The summary, the status and the exit code of a whole run of one worker that has
its scheduler to itself.  The summary sorts the steps by what happened to them,
and the exit code is zero exactly if nothing was left undone.
-/

namespace Trun

open Program

/-! ## What the history says -/

namespace Setting

variable {σ : Type} {setting : Setting σ} {w : Session σ} {world : σ} {roots : List StepId}
  {done : List (StepId × Bool)} {id : StepId}

theorem fails_iff : setting.Fails world id ↔ (setting.planOf world id).status = .unknown := by
  unfold Fails planOf
  cases setting.code.complete id world with
  | other truth => simp
  | raises failure => simp
  | answers value =>
      cases value with
      | true => simp
      | false =>
          cases setting.code.external id <;> cases setting.code.deps id world <;> simp

/-- The step is an incomplete external one. -/
def Missing (setting : Setting σ) (world : σ) (id : StepId) : Prop :=
  setting.code.complete id world = .answers false ∧ setting.code.external id = true

theorem pending_iff (hsimple : setting.Simple) (truth : Bool) :
    (setting.planOf world id).status = .pending ∧ (setting.planOf world id).runnable = truth ↔
      if truth then setting.Offers world id else setting.Missing world id := by
  have hretry : setting.config.retryExternalSteps = false := by rw [hsimple.config]
  unfold Offers Missing planOf
  cases setting.code.complete id world with
  | other value => cases truth <;> simp
  | raises failure => cases truth <;> simp
  | answers value =>
      cases value with
      | true => cases truth <;> simp
      | false =>
          cases setting.code.external id <;> cases setting.code.deps id world <;>
            cases truth <;> simp [hretry]

/-- What a worker between two rounds has said about a step. -/
theorem Resting.saidOf_iff (h : setting.Resting world roots done w) (status : Status)
    (ext : Option Bool) : saidOf w.addStepHistory id status ext ↔
      (setting.Asked world roots id ∧ (setting.planOf world id).status = status ∧
        some (setting.planOf world id).runnable = ext) ∨
      ∃ success, (id, success) ∈ done ∧ (if success then .done else .failed) = status ∧
        none = ext := by
  obtain ⟨order, horder, -, hhistory⟩ := h.history
  rw [saidOf, hhistory, List.mem_append]
  apply or_congr
  · simp only [List.mem_map, planNote, Prod.mk.injEq]
    constructor
    · rintro ⟨other, hother, rfl, hstatus, hext⟩
      exact ⟨(horder other).mp hother, hstatus, hext⟩
    · rintro ⟨hasked, hstatus, hext⟩
      exact ⟨id, (horder id).mpr hasked, rfl, hstatus, hext⟩
  · simp only [List.mem_map, reportNote, Prod.mk.injEq]
    constructor
    · rintro ⟨⟨other, success⟩, hmem, rfl, hstatus, hext⟩
      exact ⟨success, hmem, hstatus, hext⟩
    · rintro ⟨success, hmem, hstatus, hext⟩
      exact ⟨(id, success), hmem, rfl, hstatus, hext⟩

theorem Resting.hasPending_iff (hsimple : setting.Simple) (h : setting.Resting world roots done w)
    (truth : Bool) : HasPending (saidOf w.addStepHistory id) truth ↔
      setting.Asked world roots id ∧
        if truth then setting.Offers world id else setting.Missing world id := by
  rw [← pending_iff hsimple]
  simp only [HasPending, h.saidOf_iff]
  constructor
  · rintro ⟨ext, ⟨hasked, hstatus, rfl⟩ | ⟨success, -, hstatus, -⟩, htruth⟩
    · exact ⟨hasked, hstatus, htruth⟩
    · cases success <;> cases hstatus
  · rintro ⟨hasked, hstatus, htruth⟩
    exact ⟨_, .inl ⟨hasked, hstatus, rfl⟩, htruth⟩

theorem Resting.hasDone_iff (h : setting.Resting world roots done w) :
    HasStatus (saidOf w.addStepHistory id) .done ↔
      (setting.Asked world roots id ∧ setting.There world id) ∨ (id, true) ∈ done := by
  simp only [HasStatus, h.saidOf_iff, there_iff]
  constructor
  · rintro ⟨ext, ⟨hasked, hstatus, -⟩ | ⟨success, hmem, hstatus, -⟩⟩
    · exact .inl ⟨hasked, hstatus⟩
    · cases success with
      | true => exact .inr hmem
      | false => cases hstatus
  · rintro (⟨hasked, hstatus⟩ | hmem)
    · exact ⟨_, .inl ⟨hasked, hstatus, rfl⟩⟩
    · exact ⟨none, .inr ⟨true, hmem, rfl, rfl⟩⟩

theorem Resting.hasFailed_iff (h : setting.Resting world roots done w) :
    HasStatus (saidOf w.addStepHistory id) .failed ↔ (id, false) ∈ done := by
  simp only [HasStatus, h.saidOf_iff]
  constructor
  · rintro ⟨ext, ⟨-, hstatus, -⟩ | ⟨success, hmem, hstatus, -⟩⟩
    · unfold planOf at hstatus
      repeat' split at hstatus
      all_goals cases hstatus
    · cases success with
      | true => cases hstatus
      | false => exact hmem
  · exact fun hmem => ⟨none, .inr ⟨false, hmem, rfl, rfl⟩⟩

theorem Resting.hasUnknown_iff (h : setting.Resting world roots done w) :
    HasStatus (saidOf w.addStepHistory id) .unknown ↔
      setting.Asked world roots id ∧ setting.Fails world id := by
  simp only [HasStatus, h.saidOf_iff, fails_iff]
  constructor
  · rintro ⟨ext, ⟨hasked, hstatus, -⟩ | ⟨success, -, hstatus, -⟩⟩
    · exact ⟨hasked, hstatus⟩
    · cases success <;> cases hstatus
  · rintro ⟨hasked, hstatus⟩
    exact ⟨_, .inl ⟨hasked, hstatus, rfl⟩⟩

/-- The sets of a summary are those of what happened. -/
structure Sorts (setting : Setting σ) (world : σ) (roots : List StepId)
    (done : List (StepId × Bool)) (sets : SetSteps StepId) : Prop where
  completed : ∀ id, id ∈ sets.completed ↔ (id, true) ∈ done
  alreadyDone : ∀ id, id ∈ sets.alreadyDone ↔
    setting.Asked world roots id ∧ setting.There world id
  everFailed : ∀ id, id ∈ sets.everFailed ↔ (id, false) ∈ done
  failed : ∀ id, id ∈ sets.failed ↔ (id, false) ∈ done
  schedulingError : ∀ id, id ∈ sets.schedulingError ↔
    setting.Asked world roots id ∧ setting.Fails world id
  stillPendingExt : ∀ id, id ∈ sets.stillPendingExt ↔
    setting.Asked world roots id ∧ setting.Missing world id
  stillPendingNotExt : ∀ id, id ∈ sets.stillPendingNotExt ↔
    (setting.Asked world roots id ∧ setting.Offers world id) ∧ id ∉ done.map Prod.fst

theorem Resting.sorts (hsimple : setting.Simple) (h : setting.Resting world roots done w) :
    setting.Sorts world roots done (partitionSteps w.addStepHistory) := by
  have hoffers : ∀ {id success}, (id, success) ∈ done →
      setting.Asked world roots id ∧ setting.Offers world id := fun hmem =>
    h.executes.offered_of_mem (List.mem_map.mpr ⟨_, hmem, rfl⟩)
  have hpending : ∀ id, HasStatus (saidOf w.addStepHistory id) .pending ↔
      setting.Asked world roots id ∧ (setting.Offers world id ∨ setting.Missing world id) := by
    intro id
    rw [hasStatus_pending, h.hasPending_iff hsimple, h.hasPending_iff hsimple, ← and_or_left]
    rfl
  have hthere : ∀ id, setting.There world id →
      ¬(setting.Offers world id ∨ setting.Missing world id) := by
    rintro id hthere (hoffers | hmissing)
    · exact not_there_of_offers hoffers hthere
    · cases hthere.symm.trans hmissing.1
  have hdone : ∀ id, HasStatus (saidOf w.addStepHistory id) .done ∧
      HasStatus (saidOf w.addStepHistory id) .pending ↔ (id, true) ∈ done := by
    intro id
    rw [h.hasDone_iff, hpending]
    constructor
    · rintro ⟨⟨-, hid⟩ | hmem, -, hstarts⟩
      · exact absurd hstarts (hthere id hid)
      · exact hmem
    · exact fun hmem => ⟨.inr hmem, (hoffers hmem).1, .inl (hoffers hmem).2⟩
  constructor
  · intro id
    rw [mem_completed, hdone]
  · intro id
    rw [mem_alreadyDone, h.hasDone_iff, hpending]
    constructor
    · rintro ⟨hid | hmem, hnot⟩
      · exact hid
      · exact absurd ⟨(hoffers hmem).1, .inl (hoffers hmem).2⟩ hnot
    · exact fun hid => ⟨.inl hid, fun hnot => hthere id hid.2 hnot.2⟩
  · intro id
    rw [mem_everFailed, h.hasFailed_iff]
  · intro id
    rw [mem_failed, hdone, h.hasFailed_iff]
    exact and_iff_left_of_imp fun hfailed hsuccess => h.not_both hsuccess hfailed
  · intro id
    rw [mem_schedulingError, h.hasUnknown_iff]
  · intro id
    rw [mem_stillPendingExt, h.hasPending_iff hsimple, h.hasFailed_iff, h.hasDone_iff]
    refine and_iff_left_of_imp fun hid => ⟨fun hfailed => ?_, ?_⟩
    · cases (hoffers hfailed).2.2.1.symm.trans hid.2.2
    · rintro (hdone | hsuccess)
      · exact hthere id hdone.2 (.inr hid.2)
      · cases (hoffers hsuccess).2.2.1.symm.trans hid.2.2
  · intro id
    rw [mem_stillPendingNotExt, h.hasPending_iff hsimple, h.hasFailed_iff, h.hasDone_iff]
    refine and_congr_right fun hid => ?_
    have hmap : id ∈ done.map Prod.fst ↔ (id, true) ∈ done ∨ (id, false) ∈ done := by
      constructor
      · intro hmem
        obtain ⟨⟨_, success⟩, hentry, rfl⟩ := List.mem_map.mp hmem
        cases success with
        | true => exact .inl hentry
        | false => exact .inr hentry
      · rintro (hentry | hentry)
        · exact List.mem_map.mpr ⟨_, hentry, rfl⟩
        · exact List.mem_map.mpr ⟨_, hentry, rfl⟩
    have hnot : ¬(setting.Asked world roots id ∧ setting.There world id) := fun hdone =>
      hthere id hdone.2 (.inl hid.2)
    rw [hmap, or_iff_right hnot]
    tauto

end Setting

/-! ## The search for causes -/

section Searching

variable {α β : Type}

/-- Two loops agree where their bodies do. -/
theorem foldlM_congr {f g : β → α → Option β} (inv : β → Prop)
    (hbody : ∀ state item, inv state → f state item = g state item ∧
      ∀ last, f state item = some last → inv last)
    (items : List α) (state : β) (hstate : inv state) :
    items.foldlM f state = items.foldlM g state ∧
      ∀ last, items.foldlM f state = some last → inv last := by
  induction items generalizing state with
  | nil =>
      refine ⟨rfl, fun last hlast => ?_⟩
      obtain rfl := Option.some.inj hlast
      exact hstate
  | cons item rest ih =>
      obtain ⟨hsame, hinv⟩ := hbody state item hstate
      rw [List.foldlM_cons, List.foldlM_cons, ← hsame]
      cases hround : f state item with
      | none => exact ⟨rfl, fun last hlast => by cases hlast⟩
      | some middle => exact ih middle (hinv middle hround)

variable [DecidableEq α] {requires requires' : α → List α} {pending : Finset α}

/-- The search asks only pending steps for their requirements. -/
theorem depthFirstSearch_congr (hsame : ∀ step ∈ pending, requires step = requires' step)
    (fuel : ℕ) (step : α) {search : Search α}
    (hpending : search.sets.stillPendingNotExt = pending) :
    depthFirstSearch requires fuel step search = depthFirstSearch requires' fuel step search ∧
      ∀ last, depthFirstSearch requires fuel step search = some last →
        last.sets.stillPendingNotExt = pending := by
  induction fuel generalizing step search with
  | zero => exact ⟨rfl, fun last hlast => by cases hlast⟩
  | succ fuel ih =>
      rw [depthFirstSearch, depthFirstSearch]
      dsimp only
      split
      · next hstep =>
          rw [hpending] at hstep
          have hbody : ∀ (met : Search α × UpstreamFlags) (dep : α),
              met.1.sets.stillPendingNotExt = pending →
              meetStep (depthFirstSearch requires fuel) step met dep =
                meetStep (depthFirstSearch requires' fuel) step met dep ∧
              ∀ last, meetStep (depthFirstSearch requires fuel) step met dep = some last →
                last.1.sets.stillPendingNotExt = pending := by
            intro met dep hmet
            have hnoted : ∀ found : Search α, found.sets.stillPendingNotExt = pending →
                (noteCauses step dep (found.sets, met.2)).1.stillPendingNotExt = pending := by
              intro found hfound
              rw [noteCauses_eq]
              exact hfound
            unfold meetStep
            split
            · refine ⟨rfl, fun last hlast => ?_⟩
              rw [← Option.some.inj hlast]
              dsimp only
              exact hnoted met.1 hmet
            · obtain ⟨heq, hkept⟩ := ih dep hmet
              rw [← heq]
              cases hfound : depthFirstSearch requires fuel dep met.1 with
              | none => exact ⟨rfl, fun last hlast => by cases hlast⟩
              | some found =>
                  refine ⟨rfl, fun last hlast => ?_⟩
                  rw [← Option.some.inj hlast]
                  dsimp only
                  exact hnoted found (hkept found hfound)
          obtain ⟨heq, hkept⟩ := foldlM_congr
            (fun met : Search α × UpstreamFlags => met.1.sets.stillPendingNotExt = pending) hbody
            (requires step) ({ search with visited := insert step search.visited }, {}) hpending
          rw [← hsame step hstep, ← heq]
          refine ⟨rfl, fun last hlast => ?_⟩
          obtain ⟨met, hmet, hlast⟩ := Option.bind_eq_some_iff.mp hlast
          obtain rfl := Option.some.inj hlast
          have hmet := hkept met hmet
          dsimp only
          rw [noteNotRun]
          split
          · exact hmet
          · exact hmet
      · refine ⟨rfl, fun last hlast => ?_⟩
        obtain rfl := Option.some.inj hlast
        exact hpending

theorem summaryDict_congr {stepHistory : List (Note α)} {runByOtherWorker : Finset α}
    (hsame : ∀ step ∈ (partitionSteps stepHistory).stillPendingNotExt,
      requires step = requires' step) (fuel : ℕ) (order : List α) :
    summaryDict requires fuel stepHistory runByOtherWorker order =
      summaryDict requires' fuel stepHistory runByOtherWorker order := by
  rw [summaryDict, summaryDict, populateUnknownStatuses, populateUnknownStatuses]
  obtain ⟨heq, -⟩ := foldlM_congr
    (fun search : Search α => search.sets.stillPendingNotExt =
      (partitionSteps stepHistory).stillPendingNotExt)
    (fun search step hsearch => depthFirstSearch_congr hsame fuel step hsearch) order
    { sets := { partitionSteps stepHistory with runByOtherWorker } } rfl
  rw [heq]

end Searching

/-! ## Status and exit code -/

inductive TrunStatusCode where
  | success
  | successWithRetry
  | failed
  | failedAndSchedulingFailed
  | schedulingFailed
  | notRun
  | missingExt
  deriving DecidableEq

section Codes

variable {α : Type} [DecidableEq α]

def SetSteps.stepsStatus (sets : SetSteps α) : TrunStatusCode :=
  if sets.everFailed ≠ ∅ then
    if sets.failed = ∅ then .successWithRetry
    else if sets.schedulingError ≠ ∅ then .failedAndSchedulingFailed
    else .failed
  else if sets.schedulingError ≠ ∅ then .schedulingFailed
  else if sets.notRun ≠ ∅ then .notRun
  else if sets.stillPendingExt ≠ ∅ then .missingExt
  else .success

/-- No category says that something went wrong. -/
@[mk_iff clear_iff]
structure SetSteps.Clear (sets : SetSteps α) : Prop where
  failed : sets.failed = ∅
  missing : sets.stillPendingExt = ∅
  error : sets.schedulingError = ∅

/-- The options of the `[retcode]` section that `run_with_retcodes` uses after a run. -/
structure Retcode where
  missingData : Int := 0
  stepFailed : Int := 0
  alreadyRunning : Int := 0
  schedulingError : Int := 0
  notRun : Int := 0

/-- `code * (1 if cond else 0)`, where the condition is that the category is not empty. -/
def weigh (code : Int) (steps : Finset α) : Int := code * if steps ≠ ∅ then 1 else 0

namespace Retcode

variable (codes : Retcode) (sets : SetSteps α)

/-- `expected_ret_code`. -/
def expected : Int :=
  max (weigh codes.missingData sets.stillPendingExt)
    (max (weigh codes.stepFailed sets.failed)
      (max (weigh codes.alreadyRunning sets.runByOtherWorker)
        (max (weigh codes.schedulingError sets.schedulingError)
          (weigh codes.notRun sets.notRun))))

/-- The code with which `run_with_retcodes` exits after a run. -/
def exitCode (rootStep : α) : Int :=
  if codes.expected sets = 0 ∧ rootStep ∉ sets.completed ∧ rootStep ∉ sets.alreadyDone then
    codes.notRun
  else codes.expected sets

theorem weigh_empty (code : Int) : weigh code (∅ : Finset α) = 0 := Int.mul_zero code

theorem weigh_of_nonempty {steps : Finset α} (code : Int) (hsteps : steps ≠ ∅) :
    weigh code steps = code := by
  rw [weigh, if_pos hsteps, Int.mul_one]

variable {codes sets}

/-- The exit code is not zero where a category with a positive code is not empty. -/
theorem exitCode_pos {rootStep : α} {code : Int} {steps : Finset α} (hcode : 0 < code)
    (hsteps : steps ≠ ∅) (hexpected : weigh code steps ≤ codes.expected sets) :
    0 < codes.exitCode sets rootStep := by
  rw [weigh_of_nonempty code hsteps] at hexpected
  have hpos := lt_of_lt_of_le hcode hexpected
  rw [exitCode, if_neg fun h => hpos.ne' h.1]
  exact hpos

/-- The three positive codes are enough to tell whether anything went wrong. -/
theorem exitCode_eq_zero_iff {rootStep : α} (hfailed : 0 < codes.stepFailed)
    (hmissing : 0 < codes.missingData) (herror : 0 < codes.schedulingError)
    (hother : sets.runByOtherWorker = ∅)
    (hclear : sets.Clear → sets.notRun = ∅ ∧
      (rootStep ∈ sets.completed ∨ rootStep ∈ sets.alreadyDone)) :
    codes.exitCode sets rootStep = 0 ↔ sets.Clear := by
  constructor
  · intro hzero
    have hempty : ∀ {code : Int} {steps : Finset α}, 0 < code →
        weigh code steps ≤ codes.expected sets → steps = ∅ := by
      intro code steps hcode hexpected
      by_contra hsteps
      exact (exitCode_pos hcode hsteps hexpected).ne' hzero
    refine ⟨hempty hfailed ?_, hempty hmissing (le_max_left ..), hempty herror ?_⟩
    · exact (le_max_left ..).trans (le_max_right ..)
    · calc weigh codes.schedulingError sets.schedulingError
        _ ≤ max _ (weigh codes.notRun sets.notRun) := le_max_left ..
        _ ≤ max (weigh codes.alreadyRunning sets.runByOtherWorker) _ := le_max_right ..
        _ ≤ max (weigh codes.stepFailed sets.failed) _ := le_max_right ..
        _ ≤ codes.expected sets := le_max_right ..
  · intro hall
    obtain ⟨hnotRun, hroot⟩ := hclear hall
    have hexpected : codes.expected sets = 0 := by
      rw [expected, hall.failed, hall.missing, hall.error, hother, hnotRun]
      simp only [weigh_empty, max_self]
    rw [exitCode, if_neg, hexpected]
    rintro ⟨-, hcompleted, halreadyDone⟩
    exact hroot.elim hcompleted halreadyDone

end Retcode

theorem SetSteps.stepsStatus_eq_success_iff {sets : SetSteps α}
    (hretried : sets.everFailed = sets.failed) (hclear : sets.Clear → sets.notRun = ∅) :
    sets.stepsStatus = .success ↔ sets.Clear := by
  constructor
  · intro hsuccess
    unfold stepsStatus at hsuccess
    split_ifs at hsuccess with hfailed _ _ herror hnotRun hmissing
    rw [not_not] at hfailed herror hmissing
    exact ⟨hretried ▸ hfailed, hmissing, herror⟩
  · intro hall
    rw [stepsStatus, hretried, hall.failed, hall.error, hall.missing, hclear hall]
    rfl

end Codes

def Session.runByOtherWorker {σ : Type} (w : Session σ) (worker : WorkerId) : Finset StepId :=
  ((w.getWorkResponseHistory.filter fun response => response.1.isNone).flatMap fun response =>
    (response.2.filter fun running =>
      running.worker != worker && decide (running.stepId ∈ w.scheduledSteps)).map
        RunningStep.stepId).toFinset

namespace Setting

variable {σ : Type} {setting : Setting σ} {w : Session σ} {world : σ} {roots : List StepId}
  {done : List (StepId × Bool)} {id : StepId}

/-- `_requires()`, which the summary only calls for pending steps. -/
def requiresOf (setting : Setting σ) (world : σ) (id : StepId) : List StepId :=
  (setting.code.deps id world).toOption.getD []

/-- `_summary_dict`, where the pending steps are iterated in this order. -/
def summaryOf (setting : Setting σ) (w : Session σ) (fuel : ℕ) (order : List StepId) :
    Option (SetSteps StepId) :=
  summaryDict (setting.requiresOf w.world) fuel w.addStepHistory
    (w.runByOtherWorker setting.worker) order

/-- The end of `run_with_retcodes`: there is no root step without a history. -/
def exitCodeOf (setting : Setting σ) (codes : Retcode) (w : Session σ) (fuel : ℕ)
    (order : List StepId) : Option Int :=
  (setting.summaryOf w fuel order).bind fun sets =>
    w.addStepHistory.head?.map fun note => codes.exitCode sets note.1

theorem Resting.runByOtherWorker (h : setting.Resting world roots done w) (worker : WorkerId) :
    w.runByOtherWorker worker = ∅ := by
  rw [Session.runByOtherWorker, List.toFinset_eq_empty_iff, List.flatMap_eq_nil_iff]
  intro response hresponse
  rw [h.responses response (List.mem_of_mem_filter hresponse)]
  rfl

/-- What `add` can find out about a step. -/
theorem there_or_offers_or (setting : Setting σ) (world : σ) (id : StepId) :
    setting.There world id ∨ setting.Offers world id ∨ setting.Missing world id ∨
      setting.Fails world id := by
  unfold There Offers Missing Fails
  cases setting.code.complete id world with
  | other truth => simp
  | raises failure => simp
  | answers value =>
      cases value with
      | true => simp
      | false =>
          cases setting.code.external id <;> cases setting.code.deps id world <;> simp

/-- Every step that was asked for is complete. -/
def AllDone (setting : Setting σ) (world : σ) (roots : List StepId)
    (done : List (StepId × Bool)) : Prop :=
  ∀ id, setting.Asked world roots id → setting.There world id ∨ (id, true) ∈ done

/-- Without circles, something is left undone only where a category says why. -/
theorem Resting.allDone_iff (h : setting.Resting world roots done w)
    (hexhausted : Executes.Exhausted (setting.nextSteps world)
      (fun id => setting.Asked world roots id ∧ setting.Offers world id) (setting.There world) done)
    (hgrounded : ∀ id, setting.Asked world roots id → Grounded (setting.nextSteps world) id)
    {sets : SetSteps StepId} (hsorts : setting.Sorts world roots done sets) :
    setting.AllDone world roots done ↔ sets.Clear := by
  have hclear : sets.Clear ↔ (∀ id, (id, false) ∉ done) ∧
      (∀ id, ¬(setting.Asked world roots id ∧ setting.Missing world id)) ∧
        ∀ id, ¬(setting.Asked world roots id ∧ setting.Fails world id) := by
    simp only [SetSteps.clear_iff, Finset.eq_empty_iff_forall_notMem, hsorts.failed,
      hsorts.stillPendingExt, hsorts.schedulingError]
  rw [hclear]
  constructor
  · intro hall
    have hoffers : ∀ {id success}, (id, success) ∈ done →
        setting.Asked world roots id ∧ setting.Offers world id := fun hmem =>
      h.executes.offered_of_mem (List.mem_map.mpr ⟨_, hmem, rfl⟩)
    refine ⟨fun id hfailed => ?_, ?_, ?_⟩
    · cases hall id (hoffers hfailed).1 with
      | inl hthere => exact not_there_of_offers (hoffers hfailed).2 hthere
      | inr hsuccess => exact h.not_both hsuccess hfailed
    · rintro id ⟨hasked, hmissing⟩
      cases hall id hasked with
      | inl hthere => cases hthere.symm.trans hmissing.1
      | inr hsuccess => cases (hoffers hsuccess).2.2.1.symm.trans hmissing.2
    · rintro id ⟨hasked, hfails⟩
      rw [fails_iff] at hfails
      cases hall id hasked with
      | inl hthere => cases (there_iff.mp hthere).symm.trans hfails
      | inr hsuccess =>
          obtain ⟨deps, -, hplan⟩ := planOf_of_offers (hoffers hsuccess).2
          rw [hplan] at hfails
          cases hfails
  · rintro ⟨hfailed, hmissing, herror⟩
    have hstarts : ∀ id, setting.Asked world roots id → setting.There world id ∨
        setting.Asked world roots id ∧ setting.Offers world id := by
      intro id hasked
      rcases setting.there_or_offers_or world id with hthere | hoffers | hmiss | hfails
      · exact .inl hthere
      · exact .inr ⟨hasked, hoffers⟩
      · exact absurd ⟨hasked, hmiss⟩ (hmissing id)
      · exact absurd ⟨hasked, hfails⟩ (herror id)
    intro id hasked
    obtain hmet | ⟨failed, hmem, -⟩ := hexhausted.there_or_blocked
      (fun task htask need hneed => hstarts need (htask.1.next hneed)) (hgrounded id hasked)
      (hstarts id hasked)
    · exact hmet
    · exact absurd hmem (hfailed failed)

/-- The summary comes out the same in whatever order it looks at the pending steps. -/
theorem Resting.summaryOf_yields (hsteady : setting.code.Steady)
    (h : setting.Resting world roots done w)
    (hgrounded : ∀ id, setting.Asked world roots id → Grounded (setting.nextSteps world) id)
    (hsorts : setting.Sorts world roots done (partitionSteps w.addStepHistory))
    {order : List StepId}
    (horder : order.toFinset = (partitionSteps w.addStepHistory).stillPendingNotExt) :
    Yields (fun fuel => setting.summaryOf w fuel order)
      (notedSets (setting.nextSteps world)
        { partitionSteps w.addStepHistory with runByOtherWorker := ∅ }) := by
  have hsame : ∀ step ∈ (partitionSteps w.addStepHistory).stillPendingNotExt,
      setting.requiresOf w.world step = setting.nextSteps world step := by
    intro step hstep
    obtain ⟨deps, hdeps, hplan⟩ := planOf_of_offers ((hsorts.stillPendingNotExt step).mp hstep).1.2
    rw [requiresOf, hsteady.deps step w.world world, hdeps, nextSteps, hplan]
    rfl
  have hyields : Yields
      (fun fuel => summaryDict (setting.nextSteps world) fuel w.addStepHistory ∅ order)
      (notedSets (setting.nextSteps world)
        { partitionSteps w.addStepHistory with runByOtherWorker := ∅ }) :=
    summaryDict_yields
      (fun step hstep => hgrounded step ((hsorts.stillPendingNotExt step).mp hstep).1.1) horder
  obtain ⟨bound, hyields⟩ := hyields
  refine ⟨bound, fun fuel hfuel => ?_⟩
  calc setting.summaryOf w fuel order
    _ = summaryDict (setting.requiresOf w.world) fuel w.addStepHistory ∅ order := by
      rw [summaryOf, h.runByOtherWorker]
    _ = summaryDict (setting.nextSteps world) fuel w.addStepHistory ∅ order :=
      summaryDict_congr hsame fuel order
    _ = _ := hyields fuel hfuel

end Setting

end Trun
