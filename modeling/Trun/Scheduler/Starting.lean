import Trun.Scheduler.Eligibility
import Trun.Scheduler.Transitions

/-!
# Starting a batch

A worker starts a batch by reporting its combined step as running.  `add_step`
looks up the members only after it has written the batch and the owner of the
combined step, so the call raises too late where the members are gone.
-/

namespace Trun

open Program Scheduler

/-- `status=RUNNING` with a `batch_id`. -/
def AddStepArgs.startsBatch (args : AddStepArgs) : Bool :=
  args.status == .running && args.batchId.isSome

/-- The steps are the same, as far as runs are concerned. -/
structure Scheduler.SameSteps (s t : Scheduler) : Prop where
  rows : ∀ id, t.getStep id = s.getStep id
  status : ∀ id ref, s.getStep id = some ref → (t.stepAt ref).status = (s.stepAt ref).status
  workerRunning : ∀ id ref, s.getStep id = some ref →
    (t.stepAt ref).workerRunning = (s.stepAt ref).workerRunning
  batchId : ∀ id ref, s.getStep id = some ref → (t.stepAt ref).batchId = (s.stepAt ref).batchId

namespace Env

variable (env : Env)

/-- The start of a batch succeeds, or it changes nothing. -/
def StartsOrKeeps (s : Scheduler) (event : Event) : Prop :=
  match event.request with
  | .addStep args => args.startsBatch = true →
      env.raised s event = none ∨ SameSteps s (env.after s event)
  | _ => True

/-- The start is ignored, the combined step has an owner, or the first running member
of the batch has the resources it runs with. -/
def FindsBatch (s : Scheduler) (event : Event) : Prop :=
  match event.request with
  | .addStep args => args.startsBatch = true →
      let received := s.receiveStep env.config event.moment args
      ∀ ref ∈ received.getStep args.stepId,
        (received.stepAt ref).dropsClaim env.config event.moment args
            (received.workerAt args.worker).enabled = true ∨
          ¬received.claimRaises args ref
  | _ => True

instance (s : Scheduler) (event : Event) : Decidable (env.FindsBatch s event) := by
  obtain ⟨moment, request⟩ := event
  induction request using Request.casesOn <;> dsimp only [FindsBatch] <;> infer_instance

theorem startsOrKeeps_of_findsBatch {s : Scheduler} {event : Event} (hsound : s.Sound)
    (hfinds : env.FindsBatch s event) : env.StartsOrKeeps s event := by
  obtain ⟨moment, request⟩ := event
  cases request with
  | addStep args =>
      intro hstarts
      obtain ⟨outcome, hadds, houtcome⟩ := hsound.after_addStep env moment args
      left
      unfold raised
      rw [houtcome]
      generalize env.after s ⟨moment, .addStep args⟩ = t at hadds
      cases hadds with
      | dropped => rfl
      | accepted => rfl
      | failed hget hclaim hraises =>
          rcases hfinds hstarts _ hget with hdrops | hfound
          · rw [hclaim] at hdrops
            cases hdrops
          · exact absurd hraises hfound
  | _ => exact trivial

/-- A start that raises has written the owner of the combined step. -/
theorem findsBatch_of_startsOrKeeps {s : Scheduler} {event : Event} (hsound : s.Sound)
    (hkeeps : env.StartsOrKeeps s event) : env.FindsBatch s event := by
  obtain ⟨moment, request⟩ := event
  cases request with
  | addStep args =>
      intro hstarts
      dsimp only
      intro ref hget
      by_contra hnot
      rw [not_or, not_not, Bool.not_eq_true] at hnot
      obtain ⟨hclaim, hraises⟩ := hnot
      obtain ⟨outcome, hadds, houtcome⟩ := hsound.after_addStep env moment args
      have hreceipt := hsound.stored.receipt env.config moment args
      have hkept := hkeeps hstarts
      unfold raised at hkept
      rw [houtcome] at hkept
      set received := s.receiveStep env.config moment args with hreceived
      generalize env.after s ⟨moment, .addStep args⟩ = t at hadds hkept
      have hnone : (received.stepAt ref).workerRunning = none := by
        have hclaimed := hraises.1.2
        rw [workerRunning_joinStep] at hclaimed
        exact hclaimed
      cases hadds with
      | dropped hdropped =>
          rw [hdropped ref hget] at hclaim
          cases hclaim
      | accepted hget' _ hstarts =>
          obtain rfl := Option.some.inj (hget'.symm.trans hget)
          exact hstarts hraises
      | @failed other error hget' =>
          obtain rfl := Option.some.inj (hget'.symm.trans hget)
          have hsame := hkept.resolve_left fun h => by cases h
          have hold : s.getStep args.stepId = some other :=
            (hsame.rows args.stepId).symm.trans hget
          have howner := hsame.workerRunning _ _ hold
          rw [stepAt_updateStep, if_pos rfl,
            ← hreceipt.stepAt other (hsound.stored.allocated hold), hnone] at howner
          cases howner
  | _ => exact trivial

/-- In every state of a run that hands out no removed step, the start of a batch succeeds
or changes nothing exactly where it finds the members that it looks for. -/
theorem starts_or_keeps_iff {resources : Resources} {events : List Event}
    (hhands : Along env.after (HandsOutFiledSteps env) (.initial resources) events)
    (event : Event) :
    env.StartsOrKeeps (env.run (.initial resources) events) event ↔
      env.FindsBatch (env.run (.initial resources) events) event := by
  have hsound := (env.run_sound hhands).1
  exact ⟨env.findsBatch_of_startsOrKeeps hsound, env.startsOrKeeps_of_findsBatch hsound⟩

end Env

/-- A worker gets a batch of two steps. -/
def reservedBatch : List Event :=
  [ requestAt 1 (.addStepBatcher firstWorker "F" ⟨["p"], none⟩),
    requestAt 2 (schedulesMember firstWorker "a" "1"),
    requestAt 3 (schedulesMember firstWorker "b" "2"),
    requestAt 4 (.getWork { worker := firstWorker, currentSteps := some [] }) ]

/-- The worker starts the combined step. -/
def startsBatchAt (now : Time) : Event :=
  requestAt now (.addStep
    { worker := firstWorker, stepId := "c", status := .running
      batchId := some "d0726241020676b14aa6298ce6a18b21" })

/-- The worker is slow, and the members fail before it starts the batch. -/
theorem late_start_raises :
    Timely (reservedBatch ++ [requestAt 100 .prune, startsBatchAt 101]) ∧
      ¬batchEnv.StartsOrKeeps
        (batchEnv.run (.initial ∅) (reservedBatch ++ [requestAt 100 .prune]))
        (startsBatchAt 101) := by
  refine ⟨by decide +kernel, fun hkeeps => ?_⟩
  rcases hkeeps (by decide) with hraised | hsame
  · exact absurd hraised (by decide +kernel)
  · exact absurd (hsame.rows "c") (by decide +kernel)

theorem early_start_succeeds :
    batchEnv.StartsOrKeeps (batchEnv.run (.initial ∅) reservedBatch) (startsBatchAt 5) :=
  (@Env.starts_or_keeps_iff batchEnv ∅ reservedBatch (by decide +kernel) _).mpr (by decide +kernel)

end Trun
