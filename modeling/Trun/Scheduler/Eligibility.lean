import Trun.Scheduler.IndexRuns

/-!
# What `get_work` may hand out

A step is ready when all its dependencies are done, and a worker may run it when
it scheduled the step or is an assistant.  The ranked loop tests both on the step
it chooses, but only the first on a step that joins the batch of another.
-/

namespace Trun

open Program

/-- The steps that are handed out. -/
def Work.stepIds : Work → List StepId
  | .nothing => []
  | .single id _ _ _ => [id]
  | .batch _ ids _ _ _ => ids

namespace Scheduler

variable {s t : Scheduler} {args : GetWorkArgs}

/-- `in_workers`. -/
def mayRun (s : Scheduler) (args : GetWorkArgs) (ref : Ref) : Bool :=
  (args.assistant && (s.stepAt ref).runnable) || decide (args.worker ∈ (s.stepAt ref).workers)

/-- The step is ready, and the worker may run it. -/
def ReadyFor (s : Scheduler) (args : GetWorkArgs) (ref : Ref) : Prop :=
  (s.stepAt ref).status = .pending ∧
    (∀ dep ∈ (s.stepAt ref).deps.elems, ∃ target ∈ s.getStep dep,
      (s.stepAt target).status = .done) ∧
    s.mayRun args ref = true

instance (s : Scheduler) (args : GetWorkArgs) (ref : Ref) : Decidable (s.ReadyFor args ref) := by
  unfold ReadyFor; infer_instance

/-- The worker runs the step already, but does not name it. -/
def LostBy (s : Scheduler) (args : GetWorkArgs) (ref : Ref) : Prop :=
  (s.stepAt ref).status = .running ∧ (s.stepAt ref).workerRunning = some args.worker ∧
    ∃ current ∈ args.currentSteps, (s.stepAt ref).id ∉ current

instance (s : Scheduler) (args : GetWorkArgs) (ref : Ref) : Decidable (s.LostBy args ref) := by
  unfold LostBy; infer_instance

/-- Every step that is handed out is ready, or it is a single one that was lost. -/
def WorkReady (s : Scheduler) (args : GetWorkArgs) : Work → Prop
  | .nothing => True
  | .single id _ _ _ => ∃ ref ∈ s.getStep id, s.ReadyFor args ref ∨ s.LostBy args ref
  | .batch _ ids _ _ _ => ∀ id ∈ ids, ∃ ref ∈ s.getStep id, s.ReadyFor args ref

instance (s : Scheduler) (args : GetWorkArgs) (work : Work) :
    Decidable (s.WorkReady args work) := by
  induction work using Work.casesOn <;> dsimp only [WorkReady] <;> infer_instance

theorem readyFor_of_schedulable {ref : Ref} (hready : s.schedulable ref = true)
    (hmay : s.mayRun args ref = true) : s.ReadyFor args ref := by
  simp only [schedulable, Bool.and_eq_true, beq_iff_eq, List.all_eq_true] at hready
  refine ⟨hready.1, fun dep hdep => ?_, hmay⟩
  have hdone := hready.2 dep hdep
  cases hget : s.getStep dep with
  | none => simp [hget] at hdone
  | some target => exact ⟨target, rfl, by simpa [hget] using hdone⟩

/-- The reply names the picks, and all other steps stay as they are. -/
theorem HandsOut.ready {env : Env} {now : Time} {counted : Scheduler} {selection : Selection}
    {work : Work} (hhands : HandsOut env now args.worker selection counted work t)
    (hgreets : Greets s counted) (hfiled : ∀ ref ∈ selection.picks, s.Filed ref)
    (hbest : ∀ best, selection.bestStep = some best → s.ReadyFor args best ∨ s.LostBy args best)
    (hbatched : ∀ member ∈ selection.batchedSteps, s.ReadyFor args member) :
    s.WorkReady args work ∧
      ∀ ref, t.stepAt ref = s.stepAt ref ∨ (s.stepAt ref).id ∈ work.stepIds := by
  cases hhands with
  | nothing => exact ⟨trivial, fun ref => .inl (hgreets.stepAt ref)⟩
  | @single best t hchosen hsize hhands =>
      have hpick : best ∈ selection.picks := by
        rw [Selection.picks, if_neg hsize, Option.mem_toList]
        exact hchosen
      refine ⟨⟨best, ?_, hbest best hchosen⟩, fun ref => ?_⟩
      · rw [hgreets.stepAt]
        exact hfiled best hpick
      · rw [hhands.object, hgreets.stepAt]
        by_cases href : ref = best
        · right
          rw [href, hgreets.stepAt]
          exact List.mem_singleton_self _
        · exact .inl (if_neg fun h => href (List.mem_singleton.mp h))
  | batch hsize hids hhands =>
      refine ⟨fun id hid => ?_, fun ref => ?_⟩
      · rw [hids] at hid
        obtain ⟨member, hmember, rfl⟩ := List.mem_map.mp hid
        refine ⟨member, ?_, hbatched member hmember⟩
        rw [hgreets.stepAt]
        exact hfiled member (by rw [Selection.picks, if_pos hsize]; exact hmember)
      · rw [hhands.object, hgreets.stepAt]
        by_cases href : ref ∈ selection.batchedSteps
        · right
          refine hids ▸ List.mem_map.mpr ⟨ref, href, ?_⟩
          rw [hgreets.stepAt]
        · exact .inl (if_neg href)

end Scheduler

open Scheduler

namespace Env

variable (env : Env)

def HandsOutReadySteps (s : Scheduler) (event : Event) : Prop :=
  match event.request, env.outcome s event with
  | .getWork args, .ok (.work reply) =>
      env.config.pruneOnGetWork = false → (s.workerAt args.worker).enabled = true →
        (env.ranked s event.moment args).WorkReady args reply.work
  | _, _ => True

instance (s : Scheduler) (event : Event) : Decidable (env.HandsOutReadySteps s event) := by
  obtain ⟨moment, request⟩ := event
  dsimp only [HandsOutReadySteps]
  generalize env.outcome s ⟨moment, request⟩ = outcome
  rcases outcome with error | response
  · induction request using Request.casesOn <;> dsimp only <;> infer_instance
  · induction request using Request.casesOn <;> induction response using Response.casesOn <;>
      dsimp only <;> infer_instance

/-- Only what is handed out and what goes back to the pool changes its status. -/
def KeepsOtherStatuses (s : Scheduler) (event : Event) : Prop :=
  match event.request with
  | .getWork args =>
      env.config.pruneOnGetWork = false → (s.workerAt args.worker).enabled = true →
        ∀ id ref, s.getStep id = some ref →
          ((env.after s event).stepAt ref).status = (s.stepAt ref).status ∨
          (∃ reply, env.outcome s event = .ok (.work reply) ∧ id ∈ reply.work.stepIds) ∨
          ((s.stepAt ref).status = .batchRunning ∧
            (s.stepAt ref).workerRunning = some args.worker ∧
            ((env.after s event).stepAt ref).status = .pending)
  | _ => True

/-- What a worker lost is what it runs and does not name. -/
theorem lostBy_of_lostStep {s : Scheduler} {moment : Moment} {args : GetWorkArgs} {ref : Ref}
    (hsound : s.Sound) (hlost : (env.received s moment args).lostStep args = some ref) :
    (env.ranked s moment args).LostBy args ref := by
  obtain ⟨-, -, hrstored, -⟩ := receiveRequest_spec env moment args hsound.stored hsound.retriable
  obtain ⟨-, hprepares⟩ := prepares_ranked env moment args hsound.stored hsound.retriable
  obtain ⟨current, hcurrent, hactive, howner, hid⟩ := lostStep_cases hlost
  have hrunning := List.mem_singleton.mp (hrstored.index.mem_activeStepsByStatus.mp hactive).2
  have hkept : (env.ranked s moment args).stepAt ref = (env.received s moment args).stepAt ref := by
    rw [hprepares.object, if_neg]
    rintro ⟨-, horphan⟩
    rw [(hrstored.index.mem_orphanedSteps.mp horphan).2.1] at hrunning
    cases hrunning
  unfold LostBy
  rw [hkept]
  exact ⟨hrunning, howner, current, hcurrent, hid⟩

/-- A step that is ranked with another status than it had went back to the pool. -/
theorem status_ranked {s : Scheduler} {moment : Moment} {args : GetWorkArgs} (hsound : s.Sound)
    (hprune : env.config.pruneOnGetWork = false) (ref : Ref) :
    ((env.ranked s moment args).stepAt ref).id = (s.stepAt ref).id ∧
      (((env.ranked s moment args).stepAt ref).status = (s.stepAt ref).status ∨
        ((s.stepAt ref).status = .batchRunning ∧
          (s.stepAt ref).workerRunning = some args.worker ∧
          ((env.ranked s moment args).stepAt ref).status = .pending)) := by
  obtain ⟨-, hreceives, hrstored, -⟩ :=
    receiveRequest_spec env moment args hsound.stored hsound.retriable
  obtain ⟨-, hprepares⟩ := prepares_ranked env moment args hsound.stored hsound.retriable
  have hreceived := (hreceives.greets hprune).stepAt ref
  rw [hprepares.object]
  by_cases horphan : (env.received s moment args).Orphaned args ref
  · rw [if_pos horphan]
    obtain ⟨-, hbatch, howner, -⟩ := hrstored.index.mem_orphanedSteps.mp horphan.2
    rw [hreceived] at hbatch howner ⊢
    exact ⟨Step.withStatus_id .., .inr ⟨hbatch, howner, Step.withStatus_status ..⟩⟩
  · rw [if_neg horphan, hreceived]
    exact ⟨rfl, .inl rfl⟩

end Env

/-- The hash of the one batch that occurs below. -/
def batchEnv : Env :=
  { md5Hex := fun string =>
      if string = "a|b" then "d0726241020676b14aa6298ce6a18b21" else string }

/-- A batchable step of a family, which needs a resource. -/
def schedulesMember (worker : WorkerId) (id : StepId) (value : String) : Request :=
  .addStep
    { worker := worker, stepId := id, family := "F", params := some (Dict.set ∅ "p" value)
      batchable := some true, resources := some (Dict.set ∅ "r" 1) }

/-- A worker that batches a family, and a step of the family that another scheduled. -/
def sharedFamily : List Event :=
  [ requestAt 1 (.addStepBatcher firstWorker "F" ⟨["p"], none⟩),
    requestAt 2 (schedulesMember firstWorker "a" "1"),
    requestAt 3 (schedulesMember secondWorker "b" "2") ]

/-- The worker's request for work. -/
def sharedRequest : Event :=
  requestAt 4 (.getWork { worker := firstWorker, currentSteps := some [] })

/-- Both members are the worker's own. -/
def ownFamily : List Event :=
  sharedFamily ++
    [ requestAt 4 (schedulesMember firstWorker "b" "2"), sharedRequest,
      requestAt 5 (.getWork { worker := firstWorker, currentSteps := some [] }) ]

end Trun
