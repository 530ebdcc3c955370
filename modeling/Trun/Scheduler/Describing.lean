import Trun.Scheduler.Priority
import Trun.Scheduler.Settling

/-!
# Descriptions of steps

Most of what `add_step` writes describes, ranks or holds a step.  `Step.core` is
a step without that, and `Describes` relates states with the same cores.
-/

namespace Trun

open Program

namespace Step

/-- A step without its description, its rank and its stakeholders. -/
def core (step : Step) : Step :=
  { step with
    stakeholders := ∅, expl := none, priority := 0, trackingUrl := none
    statusMessage := none, progressPercentage := none }

/-- `set_status` neither reads nor writes what the core leaves out. -/
theorem core_settle (step : Step) (config : Option Config) (now : Time) (newStatus : Status) :
    (step.settle config now newStatus).core = step.core.settle config now newStatus := by
  have hrevive : (step.revive newStatus).core = step.core.revive newStatus := by
    have hstatus : step.core.status = step.status := rfl
    unfold revive
    rw [hstatus]
    split <;> rfl
  have hleave : ∀ step : Step,
      (step.leaveBatch newStatus).core = step.core.leaveBatch newStatus := by
    intro step
    unfold leaveBatch
    have : step.core.releasesBatch newStatus = step.releasesBatch newStatus := rfl
    rw [this]
    split <;> rfl
  have haccount : ∀ step : Step, (step.core.account now newStatus).2 =
      (step.account now newStatus).2 ∧
      (step.account now newStatus).1.core = (step.core.account now newStatus).1 := by
    intro step
    have hexcess : (step.core.addFailure now).hasExcessiveFailures now =
      (step.addFailure now).hasExcessiveFailures now := rfl
    have hlong : (step.core.addFailure now).failsSinceTooLong now =
      (step.addFailure now).failsSinceTooLong now := rfl
    have hstatus : step.core.status = step.status := rfl
    unfold account
    simp only [hexcess, hlong, hstatus]
    split_ifs <;> exact ⟨rfl, rfl⟩
  have hwith : ∀ (step : Step) (newStatus : Status),
      (step.withStatus now newStatus).core = step.core.withStatus now newStatus := by
    intro step newStatus
    unfold withStatus
    have : step.core.status = step.status := rfl
    rw [this]
    split <;> rfl
  have hstamp : ∀ (step : Step) (combined : Bool) (newStatus : Status),
      (step.stampIfFailed config now combined newStatus).core =
        step.core.stampIfFailed config now combined newStatus := by
    intro step combined newStatus
    unfold stampIfFailed
    split
    · unfold stampFailure
      split <;> rfl
    · rfl
  have hmark : ∀ (step : Step) (counted : Bool),
      (step.markEnd counted).core = step.core.markEnd counted := by
    intro step counted
    unfold markEnd
    split <;> rfl
  have hcounts : ∀ step : Step, step.core.countsFailure newStatus =
      step.countsFailure newStatus := fun _ => rfl
  have hignores : step.core.ignores newStatus = step.ignores newStatus := rfl
  have hcombined : step.core.removeOnFailure = step.removeOnFailure := rfl
  unfold settle book
  rw [hignores, hcombined]
  split
  · rfl
  · rw [hmark, hstamp, hwith, ← hrevive, ← hleave, (haccount _).1, (haccount _).2, hcounts]

@[simp] theorem settle_stakeholders (step : Step) (config : Option Config) (now : Time)
    (newStatus : Status) :
    (step.settle config now newStatus).stakeholders = step.stakeholders :=
  (congrArg Step.stakeholders (step.settle_plan config now newStatus) :)

theorem settle_core_congr {left right : Step} (hcore : left.core = right.core)
    (config : Option Config) (now : Time) (newStatus : Status) :
    (left.settle config now newStatus).core = (right.settle config now newStatus).core := by
  rw [core_settle, core_settle, hcore]

theorem withoutBatch_core_congr {left right : Step} (hcore : left.core = right.core) :
    left.withoutBatch.core = right.withoutBatch.core :=
  congrArg Step.withoutBatch hcore

end Step

namespace Scheduler

variable {s t u : Scheduler}

/-! ## Describing -/

/-- Only descriptions and ranks differ. -/
structure Describes (s t : Scheduler) : Prop where
  same : SameTables s t
  statusSteps : t.statusSteps = s.statusSteps
  core : ∀ ref, (t.stepAt ref).core = (s.stepAt ref).core
  stakeholders : ∀ ref, (t.stepAt ref).stakeholders = (s.stepAt ref).stakeholders

theorem Describes.refl (s : Scheduler) : Describes s s :=
  ⟨.refl s, rfl, fun _ => rfl, fun _ => rfl⟩

theorem Describes.trans (hst : Describes s t) (htu : Describes t u) : Describes s u where
  same := hst.same.trans htu.same
  statusSteps := htu.statusSteps.trans hst.statusSteps
  core := fun ref => (htu.core ref).trans (hst.core ref)
  stakeholders := fun ref => (htu.stakeholders ref).trans (hst.stakeholders ref)

theorem Describes.stored (hdescribes : Describes s t) (hstored : s.Stored) : t.Stored :=
  hstored.congr hdescribes.same.steps hdescribes.statusSteps hdescribes.same.nextRef
    (fun ref => (congrArg Step.id (hdescribes.core ref) :))
    (fun ref => (congrArg Step.status (hdescribes.core ref) :))

theorem Raises.describes (hraises : Raises s t) : Describes s t where
  same := hraises.same
  statusSteps := hraises.statusSteps
  core := fun ref => by rw [hraises.stepAt ref]; rfl
  stakeholders := fun ref => by rw [hraises.stepAt ref]

/-- A write of a description. -/
theorem describes_updateStep {ref : Ref} {change : Step → Step}
    (hcore : ∀ step, (change step).core = step.core)
    (hstakeholders : ∀ step, (change step).stakeholders = step.stakeholders) :
    Describes s (s.updateStep ref change) where
  same := sameTables_updateStep ..
  statusSteps := rfl
  core := fun other => by
    rw [stepAt_updateStep]
    split
    · exact hcore _
    · rfl
  stakeholders := fun other => by
    rw [stepAt_updateStep]
    split
    · exact hstakeholders _
    · rfl

theorem describes_updateWithBatch {ref : Ref} {change : Step → Step}
    (hcore : ∀ step, (change step).core = step.core)
    (hstakeholders : ∀ step, (change step).stakeholders = step.stakeholders) :
    Describes s (s.updateWithBatch ref change) := by
  have hown : Describes s (s.updateStep ref change) :=
    describes_updateStep hcore hstakeholders
  have hloop : ∀ (refs : List Ref) (t : Scheduler), Describes s t →
      Describes s (refs.foldl (fun current member => current.updateStep member change) t) := by
    intro refs
    induction refs with
    | nil => exact fun _ h => h
    | cons member rest ih =>
        exact fun t ht => ih _ (ht.trans (describes_updateStep hcore hstakeholders))
  unfold updateWithBatch
  dsimp only
  split
  · exact hown
  · exact hloop _ _ hown

theorem priority_updateStep {ref : Ref} {change : Step → Step}
    (hpriority : ∀ step, (change step).priority = step.priority) (s : Scheduler) (other : Ref) :
    ((s.updateStep ref change).stepAt other).priority = (s.stepAt other).priority := by
  rw [stepAt_updateStep]
  split
  · rename_i hother
    rw [hpriority, hother]
  · rfl

theorem priority_updateWithBatch {ref : Ref} {change : Step → Step}
    (hpriority : ∀ step, (change step).priority = step.priority) (s : Scheduler) (other : Ref) :
    ((s.updateWithBatch ref change).stepAt other).priority = (s.stepAt other).priority := by
  have hloop : ∀ (refs : List Ref) (t : Scheduler),
      ((refs.foldl (fun current member => current.updateStep member change) t).stepAt
        other).priority = (t.stepAt other).priority := by
    intro refs
    induction refs with
    | nil => exact fun _ => rfl
    | cons member rest ih =>
        exact fun t => (ih _).trans (priority_updateStep hpriority t other)
  unfold updateWithBatch
  dsimp only
  split
  · exact priority_updateStep hpriority s other
  · exact (hloop _ _).trans (priority_updateStep hpriority s other)

/-- A field write that does not touch the description. -/
theorem core_updateStep {ref : Ref} (change : Step → Step)
    (hcore : ∀ step, (change step).core = change step.core)
    (hst : ∀ ref, (t.stepAt ref).core = (s.stepAt ref).core) (other : Ref) :
    ((t.updateStep ref change).stepAt other).core =
      ((s.updateStep ref change).stepAt other).core := by
  simp only [stepAt_updateStep]
  split
  · rw [hcore, hcore, hst]
  · exact hst other

end Scheduler

/-- The lasting part of `describeStep`. -/
def Step.described (step : Step) (args : AddStepArgs) : Step :=
  { step with
    acceptsMessages := args.acceptsMessages.getD step.acceptsMessages
    batchable := args.batchable.getD step.batchable
    remove := none }

namespace Scheduler

theorem describes_describeStep (s : Scheduler) (args : AddStepArgs) (ref : Ref) :
    Describes (s.updateStep ref fun step => step.described args) (s.describeStep args ref) := by
  set s1 := s.updateStep ref fun step =>
    { step with acceptsMessages := args.acceptsMessages.getD step.acceptsMessages } with hs1
  obtain ⟨s2, hs2, htracked⟩ : ∃ s2, s2 = (if args.trackingUrl ≠ none ∨
      (s1.stepAt ref).status ≠ .running then
        s1.updateWithBatch ref fun step => { step with trackingUrl := args.trackingUrl }
      else s1) ∧ Describes s1 s2 := by
    refine ⟨_, rfl, ?_⟩
    split
    · exact describes_updateWithBatch (fun _ => rfl) fun _ => rfl
    · exact .refl s1
  set flag := fun step : Step =>
    { step with batchable := args.batchable.getD step.batchable, remove := none } with hflag
  have hexpl : Describes (s2.updateStep ref flag) (s.describeStep args ref) := by
    unfold describeStep
    simp only [← hs1, ← hs2, ← hflag]
    split
    · exact describes_updateWithBatch (fun _ => rfl) fun _ => rfl
    · exact .refl _
  have hwhole : ∀ other, ((s.updateStep ref fun step => step.described args).stepAt other) =
      (s1.updateStep ref flag).stepAt other := by
    intro other
    by_cases hother : other = ref
    · subst hother
      simp [hs1, hflag, Step.described]
    · simp [hs1, hother]
  have hflagged : Describes (s.updateStep ref fun step => step.described args)
      (s2.updateStep ref flag) := by
    refine ⟨?_, ?_, fun other => ?_, fun other => ?_⟩
    · have hsame := htracked.same
      exact ⟨hsame.nextRef, hsame.steps, hsame.activeWorkers, hsame.stepBatchers,
        hsame.resources, hsame.paused, hsame.saved⟩
    · exact htracked.statusSteps
    · rw [hwhole]
      exact core_updateStep flag (fun _ => rfl) htracked.core other
    · rw [hwhole]
      simp only [stepAt_updateStep]
      split
      · exact htracked.stakeholders other
      · exact htracked.stakeholders other
  exact hflagged.trans hexpl

/-- `describeStep` ranks no step anew. -/
theorem priority_describeStep (s : Scheduler) (args : AddStepArgs) (ref other : Ref) :
    ((s.describeStep args ref).stepAt other).priority = (s.stepAt other).priority := by
  have hwritten : ∀ (change : Step → Step) (condition : Prop) [Decidable condition]
      (t : Scheduler), (∀ step, (change step).priority = step.priority) →
      ((if condition then t.updateWithBatch ref change else t).stepAt other).priority =
        (t.stepAt other).priority := by
    intro change condition _ t hpriority
    split
    · exact priority_updateWithBatch hpriority t other
    · rfl
  unfold describeStep
  refine (hwritten _ _ _ ?_).trans ((priority_updateStep ?_ _ _).trans
    ((hwritten _ _ _ ?_).trans (priority_updateStep ?_ _ _))) <;> exact fun _ => rfl

end Scheduler

end Trun
