import Trun.Scheduler.Reporting
import Trun.Scheduler.Starting

/-!
# Decreasing the running resources

`decrease_running_step_resources` works on the dictionary a step runs with, and
on those of the members of its batch.  A member that was handed out runs with the
very dictionary that declares its resources.
-/

namespace Trun

open Program

/-! ## One dictionary -/

theorem get?_decreaseEntry (current : Resources) (entry : String × Int) (name : String) :
    (if 0 < entry.2 ∧ current.contains entry.1 = true then
        current.modify entry.1 0 fun amount => max 0 (amount - entry.2)
      else current).get? name =
      if name = entry.1 ∧ 0 < entry.2 then
        (current.get? name).map fun amount => max 0 (amount - entry.2)
      else current.get? name := by
  by_cases hname : name = entry.1
  · subst hname
    by_cases hpositive : 0 < entry.2
    · cases hget : current.get? entry.1 with
      | none => simp [Dict.contains, hget]
      | some amount => simp [Dict.contains, Dict.modify, Dict.getD, hget, hpositive]
    · simp [hpositive]
  · by_cases hchanges : 0 < entry.2 ∧ current.contains entry.1 = true
    · simp [hchanges, Dict.modify, hname]
    · simp [hchanges, hname]

/-- A decrease leaves every amount between zero and what it was. -/
theorem get?_decreaseResources (resources amounts : Resources) {name : String} {amount : Int}
    (hget : resources.get? name = some amount) (hnonneg : 0 ≤ amount) :
    ∃ left, (decreaseResources resources amounts).get? name = some left ∧ 0 ≤ left ∧
      left ≤ amount := by
  unfold decreaseResources
  induction amounts.entries generalizing resources amount with
  | nil => exact ⟨amount, hget, hnonneg, le_refl amount⟩
  | cons entry rest ih =>
      rw [List.foldl_cons]
      by_cases hchanges : name = entry.1 ∧ 0 < entry.2
      · have hnext := get?_decreaseEntry resources entry name
        rw [if_pos hchanges, hget, Option.map_some] at hnext
        obtain ⟨left, hleft, hlower, hupper⟩ := ih _ hnext (le_max_left _ _)
        refine ⟨left, hleft, hlower, hupper.trans (max_le hnonneg ?_)⟩
        have hpositive := hchanges.2
        omega
      · have hnext := get?_decreaseEntry resources entry name
        rw [if_neg hchanges, hget] at hnext
        exact ih _ hnext hnonneg

/-! ## One step -/

namespace Step

/-- What `decrease` does to a step. -/
def decrease (step : Step) (amounts : Resources) : Step :=
  match step.resourcesRunning with
  | none => step
  | some running =>
      { step with
        resourcesRunning := some (decreaseResources running amounts)
        resources := if step.resourcesShared then decreaseResources running amounts
          else step.resources }

/-- The amounts that a step runs with have not grown, nor dropped below zero. -/
def RunsWithLess (before after : Step) : Prop :=
  ∀ running ∈ before.resourcesRunning, ∃ left ∈ after.resourcesRunning,
    ∀ name amount, running.get? name = some amount → 0 ≤ amount →
      ∃ rest, left.get? name = some rest ∧ 0 ≤ rest ∧ rest ≤ amount

theorem RunsWithLess.refl (step : Step) : step.RunsWithLess step :=
  fun running hrunning => ⟨running, hrunning, fun _ amount hget hnonneg =>
    ⟨amount, hget, hnonneg, le_refl amount⟩⟩

theorem RunsWithLess.trans {a b c : Step} (hab : a.RunsWithLess b) (hbc : b.RunsWithLess c) :
    a.RunsWithLess c := by
  intro running hrunning
  obtain ⟨middle, hmiddle, hfirst⟩ := hab running hrunning
  obtain ⟨left, hleft, hsecond⟩ := hbc middle hmiddle
  refine ⟨left, hleft, fun name amount hget hnonneg => ?_⟩
  obtain ⟨between, hbetween, hlower, hupper⟩ := hfirst name amount hget hnonneg
  obtain ⟨rest, hrest, hlower', hupper'⟩ := hsecond name between hbetween hlower
  exact ⟨rest, hrest, hlower', hupper'.trans hupper⟩

theorem runsWithLess_decrease (step : Step) (amounts : Resources) :
    step.RunsWithLess (step.decrease amounts) := by
  intro running hrunning
  refine ⟨decreaseResources running amounts, ?_, fun name amount hget hnonneg =>
    get?_decreaseResources running amounts hget hnonneg⟩
  rw [Option.mem_def] at hrunning
  simp only [decrease, hrunning, Option.mem_def]

theorem runsWithLess_iterate (step : Step) (amounts : Resources) (count : ℕ) :
    step.RunsWithLess ((fun step => step.decrease amounts)^[count] step) := by
  induction count generalizing step with
  | zero => exact .refl step
  | succ count ih =>
      rw [Function.iterate_succ_apply]
      exact (step.runsWithLess_decrease amounts).trans (ih _)

/-- Everything but the two dictionaries stays. -/
theorem decrease_eq (step : Step) (amounts : Resources) :
    step.decrease amounts = { step with
      resources := (step.decrease amounts).resources
      resourcesRunning := (step.decrease amounts).resourcesRunning } := by
  unfold decrease
  split <;> rfl

theorem iterate_decrease_eq (step : Step) (amounts : Resources) (count : ℕ) :
    (fun step => step.decrease amounts)^[count] step = { step with
      resources := ((fun step => step.decrease amounts)^[count] step).resources
      resourcesRunning :=
        ((fun step => step.decrease amounts)^[count] step).resourcesRunning } := by
  induction count generalizing step with
  | zero => rfl
  | succ count ih =>
      rw [Function.iterate_succ_apply, ih, decrease_eq]

/-- A declared dictionary of its own is out of reach. -/
theorem iterate_decrease_resources {step : Step} (hown : step.resourcesShared = false)
    (amounts : Resources) (count : ℕ) :
    ((fun step => step.decrease amounts)^[count] step).resources = step.resources := by
  induction count generalizing step with
  | zero => rfl
  | succ count ih =>
      rw [Function.iterate_succ_apply, ih]
      · unfold decrease
        split
        · rfl
        · simp only [hown, Bool.false_eq_true, if_false]
      · rw [decrease_eq]
        exact hown

theorem decrease_isSome (step : Step) (amounts : Resources) :
    (step.decrease amounts).resourcesRunning.isSome = step.resourcesRunning.isSome := by
  unfold decrease
  split
  · rfl
  · rename_i hrunning
    rw [hrunning]
    rfl

end Step

/-! ## The loop -/

namespace Scheduler

variable {s t : Scheduler}

/-- The steps that a loop reaches before it misses a dictionary. -/
def reached (s : Scheduler) (refs : List Ref) : List Ref :=
  refs.takeWhile fun ref => (s.stepAt ref).resourcesRunning.isSome

theorem reached_congr (hsome : ∀ ref, (t.stepAt ref).resourcesRunning.isSome =
    (s.stepAt ref).resourcesRunning.isSome) (refs : List Ref) :
    t.reached refs = s.reached refs := by
  unfold reached
  congr 1
  funext ref
  exact hsome ref

/-- A write is what it does to the one step. -/
theorem updateStep_congr {ref : Ref} {change other : Step → Step}
    (hchange : change (s.stepAt ref) = other (s.stepAt ref)) :
    s.updateStep ref change = s.updateStep ref other := by
  have hmodify : s.heap.modify ref default change = s.heap.modify ref default other :=
    congrArg (s.heap.set ref) hchange
  simp only [updateStep, hmodify]

theorem decreaseStep_exec (amounts : Resources) (ref : Ref) (s : Scheduler) :
    (decreaseStep amounts ref).exec s =
      if (s.stepAt ref).resourcesRunning.isSome then
        (.ok (), s.updateStep ref fun step => step.decrease amounts)
      else (.error .missingAttribute, s) := by
  unfold decreaseStep
  rw [exec_get_bind]
  cases hrunning : (s.stepAt ref).resourcesRunning with
  | none => rfl
  | some running =>
      dsimp only
      rw [exec_modify, Option.isSome_some, if_pos rfl]
      refine congrArg (Prod.mk (Except.ok ())) (updateStep_congr ?_)
      simp only [Step.decrease, hrunning]

theorem decreaseSteps_final (amounts : Resources) (refs : List Ref) (s : Scheduler) :
    (refs.forM (decreaseStep amounts)).final s =
      (s.reached refs).foldl
        (fun current ref => current.updateStep ref fun step => step.decrease amounts) s := by
  induction refs generalizing s with
  | nil => rfl
  | cons ref rest ih =>
      have hrun := decreaseStep_exec amounts ref s
      by_cases hsome : (s.stepAt ref).resourcesRunning.isSome = true
      · rw [if_pos hsome] at hrun
        set next := s.updateStep ref fun step => step.decrease amounts with hnext
        have hkept : ∀ other, (next.stepAt other).resourcesRunning.isSome =
            (s.stepAt other).resourcesRunning.isSome := by
          intro other
          rw [hnext, stepAt_updateStep]
          split
          · exact Step.decrease_isSome ..
          · rfl
        have hrest := ih next
        rw [reached_congr hkept] at hrest
        have hloop : ((ref :: rest).forM (decreaseStep amounts)).exec s =
            (rest.forM (decreaseStep amounts)).exec next := exec_bind_ok hrun
        rw [final, hloop, reached, List.takeWhile_cons, if_pos hsome, List.foldl_cons]
        exact hrest
      · rw [if_neg hsome] at hrun
        have hloop : ((ref :: rest).forM (decreaseStep amounts)).exec s =
            (.error .missingAttribute, s) := exec_bind_error hrun
        rw [final, hloop, reached, List.takeWhile_cons, if_neg hsome, List.foldl_nil]

/-- The steps that a request reaches: the named step while it runs, and its members. -/
def decreasedSteps (s : Scheduler) (id : StepId) : List Ref :=
  match s.getStep id with
  | none => []
  | some ref =>
    if (s.stepAt ref).status = .running then s.reached (ref :: s.batchMembers ref) else []

/-- What the whole request does to each step. -/
theorem stepAt_decreaseRunningStepResources (id : StepId) (amounts : Resources) (other : Ref) :
    ((decreaseRunningStepResources id amounts).final s).stepAt other =
      (fun step => step.decrease amounts)^[(s.decreasedSteps id).count other]
        (s.stepAt other) := by
  have hloop : ∀ ref, s.getStep id = some ref → (s.stepAt ref).status = .running →
      (decreaseRunningStepResources id amounts).final s =
        ((ref :: s.batchMembers ref).forM (decreaseStep amounts)).final s := by
    intro ref hget hrunning
    unfold decreaseRunningStepResources batchMembers final
    rw [exec_get_bind, hget]
    dsimp only
    rw [if_pos hrunning]
    cases (s.stepAt ref).batchId with
    | none => rfl
    | some batchId => rfl
  unfold decreasedSteps
  cases hget : s.getStep id with
  | none =>
      have hfinal : (decreaseRunningStepResources id amounts).final s = s := by
        unfold decreaseRunningStepResources final
        rw [exec_get_bind, hget]
        rfl
      rw [hfinal]
      rfl
  | some ref =>
      dsimp only
      by_cases hrunning : (s.stepAt ref).status = .running
      · rw [hloop ref hget hrunning, decreaseSteps_final, stepAt_foldl_updateStep, if_pos hrunning]
      · have hfinal : (decreaseRunningStepResources id amounts).final s = s := by
          unfold decreaseRunningStepResources final
          rw [exec_get_bind, hget]
          dsimp only
          rw [if_neg hrunning]
          rfl
        rw [hfinal, if_neg hrunning]
        rfl

/-- The call changes nothing but what the named step and its batch run with, and only
downwards. -/
structure DecreasesRunning (id : StepId) (s t : Scheduler) : Prop where
  rows : ∀ key, t.getStep key = s.getStep key
  resources : ∀ ref, (t.stepAt ref).resources = (s.stepAt ref).resources
  others : ∀ ref, t.stepAt ref =
    { s.stepAt ref with resourcesRunning := (t.stepAt ref).resourcesRunning }
  running : ∀ other, t.stepAt other ≠ s.stepAt other → ∃ ref ∈ s.getStep id,
    (s.stepAt ref).status = .running ∧ (other = ref ∨ other ∈ s.batchMembers ref)
  less : ∀ ref, (s.stepAt ref).RunsWithLess (t.stepAt ref)

/-- No step that the call reaches runs with the dictionary it declares, unless the
amounts leave that as it is. -/
def RunsOnCopies (s : Scheduler) (id : StepId) (amounts : Resources) : Prop :=
  ∀ ref ∈ s.decreasedSteps id, (s.stepAt ref).resourcesShared = true →
    ((fun step => step.decrease amounts)^[(s.decreasedSteps id).count ref]
      (s.stepAt ref)).resources = (s.stepAt ref).resources

instance (s : Scheduler) (id : StepId) (amounts : Resources) :
    Decidable (s.RunsOnCopies id amounts) := by
  unfold RunsOnCopies; infer_instance

theorem decreasesRunning_iff (id : StepId) (amounts : Resources) (s : Scheduler) :
    DecreasesRunning id s ((decreaseRunningStepResources id amounts).final s) ↔
      s.RunsOnCopies id amounts := by
  have hobject := stepAt_decreaseRunningStepResources (s := s) id amounts
  obtain ⟨-, hrests, -⟩ := decreaseRunningStepResources_rests id amounts s trivial
  set t := (decreaseRunningStepResources id amounts).final s with ht
  constructor
  · intro hdecreases ref _ _
    rw [← hobject]
    exact hdecreases.resources ref
  · intro hcopies
    have hresources : ∀ ref, (t.stepAt ref).resources = (s.stepAt ref).resources := by
      intro ref
      rw [hobject]
      by_cases hshared : (s.stepAt ref).resourcesShared = true
      · by_cases hreached : ref ∈ s.decreasedSteps id
        · exact hcopies ref hreached hshared
        · rw [List.count_eq_zero_of_not_mem hreached]
          rfl
      · exact Step.iterate_decrease_resources (Bool.not_eq_true _ ▸ hshared) amounts _
    refine ⟨fun key => hrests.getStep key, hresources, fun ref => ?_, fun other hother => ?_,
      fun ref => ?_⟩
    · have hframe := Step.iterate_decrease_eq (s.stepAt ref) amounts
        ((s.decreasedSteps id).count ref)
      rw [← hobject, hresources] at hframe
      exact hframe
    · have hreached : other ∈ s.decreasedSteps id := by
        by_contra hnot
        rw [hobject, List.count_eq_zero_of_not_mem hnot] at hother
        exact hother rfl
      unfold decreasedSteps at hreached
      cases hget : s.getStep id with
      | none =>
          rw [hget] at hreached
          cases hreached
      | some ref =>
          rw [hget] at hreached
          dsimp only at hreached
          split at hreached
          · rename_i hrunning
            have hmem := (List.takeWhile_sublist _).subset hreached
            exact ⟨ref, rfl, hrunning, List.mem_cons.mp hmem⟩
          · cases hreached
    · rw [hobject]
      exact Step.runsWithLess_iterate _ _ _

end Scheduler

open Scheduler

/-- In every state the call works on running amounts only, exactly where the steps that
it reaches run on copies of what they declare. -/
theorem Env.decreases_running_iff (env : Env) (s : Scheduler) (moment : Moment) (id : StepId)
    (amounts : Resources) :
    DecreasesRunning id s (env.after s ⟨moment, .decreaseRunningStepResources id amounts⟩) ↔
      s.RunsOnCopies id amounts := by
  rcases hrun : (decreaseRunningStepResources id amounts).exec s with ⟨outcome, t⟩
  have hafter : env.after s ⟨moment, .decreaseRunningStepResources id amounts⟩ =
      (decreaseRunningStepResources id amounts).final s := by
    have hreply := congrArg Prod.snd (exec_reply (fun _ => Response.nothing) hrun)
    rw [final, hrun]
    exact hreply
  rw [hafter]
  exact decreasesRunning_iff id amounts s

/-- The batch runs, and its members were handed out with the dictionaries they declare. -/
def startedBatch : List Event := reservedBatch ++ [startsBatchAt 5]

/-- The member loses what it declares. -/
theorem decrease_reaches_declared :
    Timely (startedBatch ++ [requestAt 6 (.decreaseRunningStepResources "c" (Dict.set ∅ "r" 1))]) ∧
      (batchEnv.run (.initial ∅) startedBatch).getStep "a" = some 0 ∧
      ¬DecreasesRunning "c" (batchEnv.run (.initial ∅) startedBatch)
        (batchEnv.after (batchEnv.run (.initial ∅) startedBatch)
          (requestAt 6 (.decreaseRunningStepResources "c" (Dict.set ∅ "r" 1)))) := by
  refine ⟨by decide +kernel, by decide +kernel, fun hdecreases => ?_⟩
  exact absurd (hdecreases.resources 0) (by decide +kernel)

end Trun
