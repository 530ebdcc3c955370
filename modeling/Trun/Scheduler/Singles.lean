import Trun.Scheduler.Attending
import Trun.Scheduler.Limits
import Trun.Scheduler.Removal
import Trun.Scheduler.Repeating

/-!
# Runs outside of batches

Where no family is batched, a step runs under one worker's name from the request that
hands it out to the report of that worker: no other request moves the run, and the step is
handed to nobody else.
-/

namespace Trun

open Program

/-- The report of a run: its result, or new dependencies. -/
def AddStepArgs.endsRun (args : AddStepArgs) : Bool :=
  match args.status with
  | .done | .failed => true
  | .pending => args.hasNewDeps
  | _ => false

def handedStep : Except Raised Response → Option StepId
  | .ok (.work ⟨_, .single stepId _ _ _⟩) => some stepId
  | _ => none

/-! ## Steps outside of batches -/

namespace Step

variable {config : Config} {now : Time} {assistants : List WorkerId} {a b c : Step}

/-- A step without a batch gets none, and no removal stamp either. -/
def Unstamped (a b : Step) : Prop :=
  a.batchId = none → b.batchId = none ∧ b.remove = a.remove

theorem Unstamped.refl (step : Step) : step.Unstamped step := fun h => ⟨h, rfl⟩

theorem Unstamped.trans (hab : a.Unstamped b) (hbc : b.Unstamped c) : a.Unstamped c := by
  intro ha
  obtain ⟨hb, hremove⟩ := hab ha
  obtain ⟨hc, hremove'⟩ := hbc hb
  exact ⟨hc, hremove'.trans hremove⟩

theorem unstamped_settle (step : Step) (config : Option Config) (now : Time)
    (newStatus : Status) : step.Unstamped (step.settle config now newStatus) := by
  intro hbatch
  refine ⟨?_, settle_remove_of_single _ _ _ _ hbatch⟩
  rw [settle_batchId, hbatch, ite_self]

theorem unstamped_failDead (config : Config) (now : Time) (assistants : List WorkerId)
    (step : Step) : step.Unstamped (step.failDead config now assistants) := by
  unfold failDead
  split
  · exact fun hbatch =>
      unstamped_settle ({ step with workerRunning := none } : Step) (some config) now .failed hbatch
  · exact .refl step

theorem unstamped_reEnableIfExpired (config : Config) (now : Time) (step : Step) :
    step.Unstamped (step.reEnableIfExpired config now) := by
  unfold reEnableIfExpired
  split
  · split
    · exact fun hbatch => unstamped_settle step.reEnable (some config) now .failed hbatch
    · exact .refl step
  · exact .refl step

theorem unstamped_retryIfDue (config : Config) (now : Time) (step : Step) :
    step.Unstamped (step.retryIfDue config now) := by
  unfold retryIfDue
  split
  · split
    · exact .refl step
    · split
      · exact unstamped_settle step (some config) now .pending
      · exact .refl step
  · exact .refl step

/-- Someone needs the step, or it runs. -/
theorem stampUnneeded_of_needed {step : Step}
    (hneeded : step.stakeholders ≠ ∅ ∨ step.status = .running) :
    step.stampUnneeded config now = step := by
  unfold stampUnneeded
  rw [if_neg]
  rintro ⟨hempty, -, hstopped⟩
  exact hneeded.elim (fun h => h hempty) hstopped

theorem failDead_stakeholders (step : Step) :
    (step.failDead config now assistants).stakeholders = step.stakeholders := by
  unfold failDead
  split
  · exact (congrArg Step.stakeholders (settle_plan _ _ _ _) :)
  · rfl

/-- The visit of a step that someone needs, or whose run goes on. -/
theorem unstamped_visited {step : Step}
    (hneeded : step.stakeholders ≠ ∅ ∨
      (step.status = .running ∧ step.runByDead assistants = false)) :
    step.Unstamped (step.visited config now assistants) := by
  unfold visited refreshed
  rw [stampUnneeded_of_needed]
  · exact (unstamped_failDead config now assistants step).trans
      ((unstamped_reEnableIfExpired config now _).trans (unstamped_retryIfDue config now _))
  · rcases hneeded with h | ⟨hrunning, halive⟩
    · exact .inl (by rwa [failDead_stakeholders])
    · right
      unfold failDead
      rw [halive]
      exact hrunning

/-- A visit puts no step in a batch. -/
theorem visited_single {step : Step} (hbatch : step.batchId = none)
    (hstatus : step.status ≠ .batchRunning) :
    (step.visited config now assistants).batchId = none ∧
      (step.visited config now assistants).status ≠ .batchRunning := by
  have hstamped : (((step.failDead config now assistants)).stampUnneeded config now).batchId =
      none := by
    rw [(Scheduler.stampUnneeded_parts config now _).2.1.batchId]
    exact (unstamped_failDead config now assistants step hbatch).1
  refine ⟨((unstamped_reEnableIfExpired config now _).trans
    (unstamped_retryIfDue config now _) hstamped).1, ?_⟩
  by_cases hrunning : step.status.isRunning = true
  · cases hdead : step.runByDead assistants with
    | true =>
        intro h
        have hstopped : (step.visited config now assistants).status.isRunning = false :=
          Scheduler.visited_dead hdead
        rw [h] at hstopped
        cases hstopped
    | false =>
        have hsame : step.SameRun (step.visited config now assistants) :=
          Scheduler.visited_alive hrunning hdead
        rw [hsame.status]
        exact hstatus
  · intro h
    have hstopped : (step.visited config now assistants).status.isRunning = false := by
      unfold visited failDead
      rw [if_neg fun hdead => hrunning (runByDead_running hdead)]
      exact Scheduler.refreshed_stopped (by simpa using hrunning)
    rw [h] at hstopped
    cases hstopped

/-- A visit starts no run. -/
theorem running_of_visited {step : Step} (halive : step.runByDead assistants = false)
    (hrunning : (step.visited config now assistants).status = .running) :
    step.status = .running := by
  by_cases hran : step.status.isRunning = true
  · have hsame : step.SameRun (step.visited config now assistants) :=
      Scheduler.visited_alive hran halive
    rw [← hsame.status]
    exact hrunning
  · have hstopped : (step.refreshed config now).status.isRunning = false :=
      Scheduler.refreshed_stopped (by simpa using hran)
    unfold visited failDead at hrunning
    rw [halive, if_neg Bool.false_ne_true] at hrunning
    rw [hrunning] at hstopped
    cases hstopped

section Handed

variable (step : Step) (worker : WorkerId) (now : Time)

theorem remove_handed : (step.handed worker now).remove = step.remove := by
  unfold handed withStatus
  split <;> rfl

theorem stakeholders_handed : (step.handed worker now).stakeholders = step.stakeholders :=
  (congrArg Step.stakeholders (step.withStatus_plan now .running) :)

end Handed

/-- What the life of a step tells of its run. -/
theorem life_parts {a b : Step} (hlife : a.life = b.life) :
    a.status = b.status ∧ a.workerRunning = b.workerRunning ∧ a.batchId = b.batchId ∧
      a.remove = b.remove :=
  ⟨(congrArg Step.status hlife :), (congrArg Step.workerRunning hlife :),
    (congrArg Step.batchId hlife :), (congrArg Step.remove hlife :)⟩

end Step

/-! ## The table -/

namespace Scheduler

variable {s t u : Scheduler} {env : Env} {config : Config} {moment : Moment} {ref : Ref}
variable {assistants : WorkerId → Bool} {id : StepId} {worker : WorkerId}

def RunsFor (s : Scheduler) (id : StepId) (worker : WorkerId) : Prop :=
  ∃ ref, s.getStep id = some ref ∧ (s.stepAt ref).status = .running ∧
    (s.stepAt ref).workerRunning = some worker

/-- No step belongs to a batch, and no running step is marked for removal. -/
structure Single (s : Scheduler) : Prop where
  batchId : ∀ ref, s.Filed ref → (s.stepAt ref).batchId = none
  status : ∀ ref, s.Filed ref → (s.stepAt ref).status ≠ .batchRunning
  running : ∀ ref, s.Filed ref → (s.stepAt ref).status = .running → (s.stepAt ref).remove = none

/-- The steps that an ordinary worker lists stay in the table for its sake. -/
def Staked (assistants : WorkerId → Bool) (s : Scheduler) : Prop :=
  ∀ worker, assistants worker = false → ∀ ref ∈ (s.workerAt worker).steps,
    s.Filed ref ∧ worker ∈ (s.stepAt ref).stakeholders ∧ (s.stepAt ref).remove = none

/-- What holds of every state. -/
structure Ordered (assistants : WorkerId → Bool) (s : Scheduler) : Prop where
  sound : s.Sound
  attended : s.Attended
  single : s.Single
  staked : s.Staked assistants

theorem RunsFor.unique {other : WorkerId} (hruns : s.RunsFor id worker)
    (hother : s.RunsFor id other) : worker = other := by
  obtain ⟨ref, hget, -, howner⟩ := hruns
  obtain ⟨ref', hget', -, howner'⟩ := hother
  obtain rfl : ref = ref' := Option.some.inj (hget.symm.trans hget')
  exact Option.some.inj (howner.symm.trans howner')

/-! ### Requests that leave the steps as they are -/

/-- The same rows and runs. -/
structure Unmoved (s t : Scheduler) : Prop where
  getStep : ∀ id, t.getStep id = s.getStep id
  life : ∀ ref, (t.stepAt ref).life = (s.stepAt ref).life
  stakeholders : ∀ ref, (t.stepAt ref).stakeholders = (s.stepAt ref).stakeholders
  listed : ∀ worker, (t.workerAt worker).steps = (s.workerAt worker).steps

theorem Unmoved.trans (hst : Unmoved s t) (htu : Unmoved t u) : Unmoved s u where
  getStep := fun id => (htu.getStep id).trans (hst.getStep id)
  life := fun ref => (htu.life ref).trans (hst.life ref)
  stakeholders := fun ref => (htu.stakeholders ref).trans (hst.stakeholders ref)
  listed := fun worker => (htu.listed worker).trans (hst.listed worker)

theorem Rests.unmoved (hrests : Rests s t) : Unmoved s t where
  getStep := hrests.getStep
  life := hrests.life
  stakeholders := hrests.stakeholders
  listed := fun worker => (hrests.worker worker).1

theorem SameContents.unmoved (hcontents : SameContents s t) : Unmoved s t where
  getStep := fun id => by rw [Scheduler.getStep, Scheduler.getStep, hcontents.steps]
  life := fun ref => by rw [stepAt, stepAt, hcontents.heap]
  stakeholders := fun ref => by rw [stepAt, stepAt, hcontents.heap]
  listed := fun worker => by rw [workerAt, workerAt, hcontents.activeWorkers]

/-- Where no step belongs to a batch, the beginning of `get_work` puts nothing back. -/
theorem Prepares.unmoved {args : GetWorkArgs} (hprepares : Prepares moment.now args s t)
    (hindex : s.Indexed) (hsingle : s.Single) : Unmoved s t := by
  have hobject : ∀ ref, t.stepAt ref = s.stepAt ref := by
    intro ref
    rw [hprepares.object, if_neg]
    rintro ⟨-, horphaned⟩
    obtain ⟨hfiled, hstatus, -⟩ := hindex.mem_orphanedSteps.mp horphaned
    exact hsingle.status ref hfiled hstatus
  obtain ⟨u, hgreets, hsame⟩ := hprepares.greeted
  exact ⟨hprepares.getStep, fun ref => by rw [hobject], fun ref => by rw [hobject],
    fun worker => by rw [hsame.workerAt, (hgreets.worker worker).2.1]⟩

section Unmoved

variable (hunmoved : Unmoved s t)
include hunmoved

theorem Unmoved.status (ref : Ref) : (t.stepAt ref).status = (s.stepAt ref).status :=
  (Step.life_parts (hunmoved.life ref)).1

theorem Unmoved.workerRunning (ref : Ref) :
    (t.stepAt ref).workerRunning = (s.stepAt ref).workerRunning :=
  (Step.life_parts (hunmoved.life ref)).2.1

theorem Unmoved.remove (ref : Ref) : (t.stepAt ref).remove = (s.stepAt ref).remove :=
  (Step.life_parts (hunmoved.life ref)).2.2.2

theorem Unmoved.filed (ref : Ref) : t.Filed ref ↔ s.Filed ref := by
  have hid : (t.stepAt ref).id = (s.stepAt ref).id := (congrArg Step.id (hunmoved.life ref) :)
  unfold Filed
  rw [hunmoved.getStep, hid]

theorem Unmoved.runsFor : t.RunsFor id worker ↔ s.RunsFor id worker := by
  apply exists_congr
  intro ref
  rw [hunmoved.getStep, hunmoved.status, hunmoved.workerRunning]

theorem Unmoved.single (hsingle : s.Single) : t.Single where
  batchId := fun ref hfiled => (Step.life_parts (hunmoved.life ref)).2.2.1.trans
    (hsingle.batchId ref ((hunmoved.filed ref).mp hfiled))
  status := fun ref hfiled => by
    rw [hunmoved.status]
    exact hsingle.status ref ((hunmoved.filed ref).mp hfiled)
  running := fun ref hfiled hrunning => by
    rw [hunmoved.remove]
    exact hsingle.running ref ((hunmoved.filed ref).mp hfiled) (hunmoved.status ref ▸ hrunning)

theorem Unmoved.staked (hstaked : s.Staked assistants) : t.Staked assistants := by
  intro worker hordinary ref href
  rw [hunmoved.listed] at href
  rw [hunmoved.filed, hunmoved.stakeholders, hunmoved.remove]
  exact hstaked worker hordinary ref href

end Unmoved

/-! ### Pruning -/

section Prune

variable {now : Time}

/-- A step outside of batches changes in its own visit only. -/
theorem stepAt_pruned (hsound : s.Sound) (hsingle : s.Single)
    (hrun : (prune config now).exec s = (.ok (), t)) (hfiled : s.Filed ref) :
    t.stepAt ref = ((s.pruneWorkers config now).stepAt ref).visited config now
      (s.pruneWorkers config now).assistants := by
  obtain ⟨hnodup, hmem, visited, hvisits, hobjects⟩ :=
    prune_visits hsound.stored hsound.retriable hrun
  have hinactivates : Inactivates (s.silentWorkers config now) s (s.pruneWorkers config now) :=
    inactivateWorkers_spec hsound.stored _
  obtain ⟨step, hstep⟩ := hinactivates.plan ref
  have hbatch : ((s.pruneWorkers config now).stepAt ref).batchId = none := by
    rw [hstep]
    exact hsingle.batchId ref hfiled
  have hstatus : ((s.pruneWorkers config now).stepAt ref).status ≠ .batchRunning := by
    rw [hstep]
    exact hsingle.status ref hfiled
  rw [hobjects]
  exact hvisits.own ((hmem ref).mpr hfiled) hnodup hstatus (Step.visited_single hbatch hstatus).2

/-- A step that someone needs, or whose run goes on, keeps its removal stamp. -/
theorem remove_pruned (hsound : s.Sound) (hsingle : s.Single)
    (hrun : (prune config now).exec s = (.ok (), t)) (hfiled : s.Filed ref)
    (hneeded : ((s.pruneWorkers config now).stepAt ref).stakeholders ≠ ∅ ∨
      (t.stepAt ref).status = .running) :
    (t.stepAt ref).remove = (s.stepAt ref).remove := by
  have hinactivates : Inactivates (s.silentWorkers config now) s (s.pruneWorkers config now) :=
    inactivateWorkers_spec hsound.stored _
  have hobject := stepAt_pruned hsound hsingle hrun hfiled
  obtain ⟨step, hstep⟩ := hinactivates.plan ref
  have hbatch : ((s.pruneWorkers config now).stepAt ref).batchId = none := by
    rw [hstep]
    exact hsingle.batchId ref hfiled
  have hsame : ((s.pruneWorkers config now).stepAt ref).remove = (s.stepAt ref).remove := by
    rw [hstep]
  have hstays : ((s.pruneWorkers config now).stepAt ref).stakeholders ≠ ∅ ∨
      (((s.pruneWorkers config now).stepAt ref).status = .running ∧
        ((s.pruneWorkers config now).stepAt ref).runByDead
          (s.pruneWorkers config now).assistants = false) := by
    refine hneeded.imp_right fun hrunning => ?_
    rw [hobject] at hrunning
    have halive : ((s.pruneWorkers config now).stepAt ref).runByDead
        (s.pruneWorkers config now).assistants = false := by
      by_contra hdead
      have hstopped : (((s.pruneWorkers config now).stepAt ref).visited config now
          (s.pruneWorkers config now).assistants).status.isRunning = false :=
        visited_dead (by simpa using hdead)
      rw [hrunning] at hstopped
      cases hstopped
    exact ⟨Step.running_of_visited halive hrunning, halive⟩
  rw [hobject, (Step.unstamped_visited hstays hbatch).2, hsame]

/-- A step without a stamp stays in the table. -/
theorem filed_pruned (hsound : s.Sound) (hrun : (prune config now).exec s = (.ok (), t))
    (hfiled : s.Filed ref) (hremove : (t.stepAt ref).remove = none) : t.Filed ref := by
  by_contra hgone
  obtain ⟨visited, -, hdue, hswept⟩ :=
    prune_removes hsound.stored hsound.retriable hrun hfiled hgone
  have hstamped : (visited.stepAt ref).remove.isSome = true := by
    unfold Step.mayPrune at hdue
    cases hstamp : (visited.stepAt ref).remove with
    | none =>
        rw [hstamp] at hdue
        cases hdue
    | some _ => rfl
  have hstays := (Step.Swept.stamps hswept).isSome hstamped
  rw [hremove] at hstays
  cases hstays

/-- A step that runs after a `prune` ran before it. -/
theorem Prunes.sameRun (hprunes : Prunes config now s t)
    (hrunning : (t.stepAt ref).status.isRunning = true) :
    (s.stepAt ref).SameRun (t.stepAt ref) := by
  obtain ⟨step, hstep⟩ := hprunes.inactivates.plan ref
  have hpruned : (s.stepAt ref).SameRun ((s.pruneWorkers config now).stepAt ref) := by
    rw [hstep]
    exact ⟨rfl, rfl, rfl⟩
  exact hpruned.trans ((hprunes.object ref).running hrunning)

theorem not_silent_of_alive (hrostered : s.Rostered) {worker : WorkerId}
    (halive : (s.workerAt worker).prune config now = false) :
    worker ∉ s.silentWorkers config now := by
  intro hsilent
  obtain ⟨known, hmem, hid⟩ := List.mem_map.mp hsilent
  obtain ⟨hvalue, hprune⟩ := List.mem_filter.mp hmem
  obtain ⟨id, hget⟩ := (Dict.mem_values_iff _ _).mp hvalue
  have hknown := workerAt_eq hget
  have hsame : id = worker := by
    rw [← hid, ← hknown, hrostered.worker_id]
  rw [hsame] at hknown
  rw [hknown, hprune] at halive
  cases halive

variable (hsound : s.Sound) (hattended : s.Attended) (hsingle : s.Single)
variable (hrun : (prune config now).exec s = (.ok (), t)) (hprunes : Prunes config now s t)
include hsound hsingle hrun hprunes

theorem single_pruned : t.Single := by
  have hvisited : ∀ ref, t.Filed ref →
      (t.stepAt ref).batchId = none ∧ (t.stepAt ref).status ≠ .batchRunning := by
    intro ref hfiled
    have hbefore := hprunes.filed hfiled
    obtain ⟨step, hstep⟩ := hprunes.inactivates.plan ref
    rw [stepAt_pruned hsound hsingle hrun hbefore]
    apply Step.visited_single
    · rw [hstep]
      exact hsingle.batchId ref hbefore
    · rw [hstep]
      exact hsingle.status ref hbefore
  refine ⟨fun ref h => (hvisited ref h).1, fun ref h => (hvisited ref h).2,
    fun ref hfiled hrunning => ?_⟩
  have hbefore := hprunes.filed hfiled
  have hsame := hprunes.sameRun (by rw [hrunning]; rfl : (t.stepAt ref).status.isRunning = true)
  rw [remove_pruned hsound hsingle hrun hbefore (.inr hrunning)]
  exact hsingle.running ref hbefore (hsame.status ▸ hrunning)

theorem staked_pruned (hstaked : s.Staked assistants) : t.Staked assistants := by
  intro worker hordinary ref href
  obtain ⟨swept, removed, hsweeps, hdrops, -⟩ := hprunes.outcome
  have hworker : t.workerAt worker = (s.pruneWorkers config now).workerAt worker := by
    rw [workerAt, workerAt, hdrops.surroundings.activeWorkers, hsweeps.same.activeWorkers]
  rw [hworker] at href
  obtain ⟨hloud, hlisted⟩ := hprunes.inactivates.listed href
  obtain ⟨hfiled, hstake, hremove⟩ := hstaked worker hordinary ref hlisted
  have hkept : worker ∈ ((s.pruneWorkers config now).stepAt ref).stakeholders :=
    (hprunes.inactivates.mem_stakeholders hsound.index hfiled).mpr ⟨hloud, hstake⟩
  have hunstamped : (t.stepAt ref).remove = none := by
    rw [remove_pruned hsound hsingle hrun hfiled (.inl (Finset.ne_empty_of_mem hkept)), hremove]
  refine ⟨filed_pruned hsound hrun hfiled hunstamped, ?_, hunstamped⟩
  rw [(hprunes.object ref).stakeholders]
  exact hkept

omit hsound hsingle hrun in
theorem runsFor_of_pruned (hruns : t.RunsFor id worker) : s.RunsFor id worker := by
  obtain ⟨ref, hget, hrunning, howner⟩ := hruns
  have hsame := hprunes.sameRun (by rw [hrunning]; rfl : (t.stepAt ref).status.isRunning = true)
  exact ⟨ref, hprunes.getStep hget, hsame.status ▸ hrunning, hsame.workerRunning ▸ howner⟩

include hattended in
/-- The run of a worker that is not silent goes on. -/
theorem runsFor_pruned (hruns : s.RunsFor id worker)
    (halive : (s.workerAt worker).prune config now = false) : t.RunsFor id worker := by
  obtain ⟨ref, hget, hrunning, howner⟩ := hruns
  have hfiled : s.Filed ref := hsound.index.filed hget
  have hknows : s.Knows worker :=
    (hattended.owner ref hfiled (by rw [hrunning]; rfl) worker howner).elim
      (hattended.stakeholder ref hfiled worker) Assists.knows
  have hloud := not_silent_of_alive hsound.rostered halive
  have hgoes : (t.stepAt ref).status.isRunning = true := by
    by_contra hstopped
    rcases (prune_stops hsound hattended hrun hfiled (by rw [hrunning]; rfl)).mp
      (by simpa using hstopped) with ⟨-, owner, howner', hgone⟩ | ⟨hmember, -⟩
    · obtain rfl : worker = owner := Option.some.inj (howner.symm.trans howner')
      exact hgone (hprunes.inactivates.knows.mpr ⟨hloud, hknows⟩)
    · rw [hrunning] at hmember
      cases hmember
  have hsame := hprunes.sameRun hgoes
  have hrunning' : (t.stepAt ref).status = .running := hsame.status.trans hrunning
  have hunstamped : (t.stepAt ref).remove = none := by
    rw [remove_pruned hsound hsingle hrun hfiled (.inr hrunning')]
    exact hsingle.running ref hfiled hrunning
  have hkept := filed_pruned hsound hrun hfiled hunstamped
  refine ⟨ref, ?_, hrunning', hsame.workerRunning.trans howner⟩
  unfold Filed at hkept
  rwa [hprunes.id, hsound.index.step_id hget] at hkept

end Prune

/-! ### Scheduling and reporting -/

section Receipt

variable {args : AddStepArgs}

theorem single_received (hsingle : s.Single) (hstored : s.Stored)
    (hreceipt : Receipt config moment args s t) : t.Single := by
  have hobject : ∀ ref, t.Filed ref → (s.Filed ref ∧ t.stepAt ref = s.stepAt ref) ∨
      t.stepAt ref = args.defaultStep config moment := by
    intro ref hfiled
    rcases hreceipt.filed hstored hfiled with h | ⟨-, h⟩
    · exact .inl ⟨h, hreceipt.stepAt ref (hstored.filed_lt h)⟩
    · exact .inr h
  constructor <;> intro ref hfiled <;> rcases hobject ref hfiled with ⟨hold, hstep⟩ | hstep <;>
    rw [hstep]
  · exact hsingle.batchId ref hold
  · rfl
  · exact hsingle.status ref hold
  · exact fun h => by cases h
  · exact hsingle.running ref hold
  · exact fun h => by cases h

theorem staked_received (hstaked : s.Staked assistants) (hstored : s.Stored)
    (hreceipt : Receipt config moment args s t) : t.Staked assistants := by
  intro worker hordinary ref href
  rw [(hreceipt.worker worker).1] at href
  obtain ⟨hfiled, hstake⟩ := hstaked worker hordinary ref href
  have hstep := hreceipt.stepAt ref (hstored.filed_lt hfiled)
  unfold Filed at hfiled ⊢
  rw [hstep]
  exact ⟨hreceipt.keeps hfiled, hstake⟩

theorem runsFor_received (hstored : s.Stored) (hreceipt : Receipt config moment args s t) :
    t.RunsFor id worker ↔ s.RunsFor id worker := by
  constructor
  · rintro ⟨ref, hget, hrunning, howner⟩
    rcases hreceipt.fresh hget with hold | ⟨-, -, -, hnew⟩
    · have hstep := hreceipt.stepAt ref (hstored.filed_lt (hstored.index.filed hold))
      rw [hstep] at hrunning howner
      exact ⟨ref, hold, hrunning, howner⟩
    · rw [hnew] at hrunning
      cases hrunning
  · rintro ⟨ref, hget, hrunning, howner⟩
    refine ⟨ref, hreceipt.keeps hget, ?_, ?_⟩ <;>
      rw [hreceipt.stepAt ref (hstored.filed_lt (hstored.index.filed hget))]
    · exact hrunning
    · exact howner

end Receipt

section Accepts

variable {args : AddStepArgs} {enabled : Bool} {other : Ref}

/-- A worker says that a step runs only where it runs for the worker. -/
def ClaimsOwn (s : Scheduler) (args : AddStepArgs) : Prop :=
  args.batchId = none ∧ args.status ≠ .batchRunning ∧
    (args.status = .running → s.RunsFor args.stepId args.worker) ∧
    (args.hasNewDeps = true → args.status = .pending)

/-- The parts of the step in front of the guard. -/
theorem openedStep_parts (moment : Moment) (hclaims : s.ClaimsOwn args)
    (hget : s.getStep args.stepId = some ref) :
    (s.openedStep moment args ref).status = (s.stepAt ref).status ∧
      (s.openedStep moment args ref).workerRunning = (s.stepAt ref).workerRunning ∧
      (s.openedStep moment args ref).batchId = (s.stepAt ref).batchId ∧
      (s.openedStep moment args ref).remove = none := by
  obtain ⟨-, -, hstatus, -, -, -, hbatch⟩ := openedStep_plan_fields s moment args ref
  refine ⟨hstatus, ?_, ?_, rfl⟩
  · rw [openedStep_workerRunning]
    split
    · rename_i hclaim
      obtain ⟨ref', hget', -, howner⟩ := hclaims.2.2.1 hclaim.1
      obtain rfl : ref = ref' := Option.some.inj (hget.symm.trans hget')
      rw [hclaim.2] at howner
      cases howner
    · rfl
  · rw [hbatch, hclaims.1]
    rfl

/-- The step itself after the request. -/
theorem Accepts.target_fields (haccepts : Accepts config moment args ref enabled s t) :
    (t.stepAt ref).batchId = ((s.openedStep moment args ref).report config moment args).batchId ∧
      (t.stepAt ref).remove = ((s.openedStep moment args ref).report config moment args).remove :=
  ⟨(congrArg Step.batchId haccepts.target :), (congrArg Step.remove haccepts.target :)⟩

/-- The other steps keep their runs, since no batch ends. -/
theorem Accepts.other_life (haccepts : Accepts config moment args ref enabled s t)
    (hsingle : s.Single) (hlt : other < s.nextRef) (hne : other ≠ ref) :
    (t.stepAt other).life = (s.stepAt other).life := by
  have hcore := haccepts.other other hlt hne
  rw [if_neg fun hpasses => hsingle.status other hpasses.2.1 hpasses.2.2.1] at hcore
  exact Step.life_of_core hcore

theorem unstamped_report (step : Step) (config : Config) (moment : Moment)
    (args : AddStepArgs) : step.Unstamped (step.report config moment args) := by
  unfold Step.report
  split
  · exact Step.unstamped_settle _ _ _ _
  · exact .refl step

theorem report_workerRunning (step : Step) (config : Config) (moment : Moment)
    (args : AddStepArgs) :
    (step.report config moment args).workerRunning = step.workerRunning := by
  unfold Step.report
  split
  · exact Step.settle_workerRunning ..
  · rfl

/-- A run goes on that the report is not about. -/
theorem report_goes_on {step : Step} (hrunning : step.status = .running)
    (howner : step.workerRunning = some worker)
    (hnew : args.hasNewDeps = true → args.status = .pending ∧ args.worker = worker)
    (hends : ¬(args.endsRun = true ∧ args.worker = worker)) :
    (step.report config moment args).status = .running := by
  unfold Step.report
  split
  swap
  · exact hrunning
  rename_i haccepts
  have hstarted : args.startedARun = true ∧ args.worker = worker := by
    by_contra hforeign
    have hdeps : args.hasNewDeps = true := by
      unfold Step.acceptsReport at haccepts
      rw [hrunning, howner, Bool.or_eq_true, Bool.or_eq_true] at haccepts
      rcases haccepts with (h | h) | h
      · cases h
      · rw [Bool.and_eq_true, beq_iff_eq, Option.some.injEq] at h
        exact absurd ⟨h.1, h.2.symm⟩ hforeign
      · exact h
    refine hends ⟨?_, (hnew hdeps).2⟩
    simp only [AddStepArgs.endsRun, (hnew hdeps).1, hdeps]
  have hstatus : args.status = .running := by
    by_contra hother
    refine hends ⟨?_, hstarted.2⟩
    have hresult := hstarted.1
    unfold AddStepArgs.startedARun at hresult
    unfold AddStepArgs.endsRun
    cases hcase : args.status <;> simp_all
  have hnewStatus : args.newStatus = .running := newStatus_running.mpr hstatus
  rw [hnewStatus]
  exact Step.settle_status _ _ _ _ (by simp [Step.ignores, hrunning]) (by decide)

/-- A run that goes on was there before, and its worker has not reported its end. -/
theorem report_went_on {step : Step}
    (hstarts : args.status = .running → step.status = .running)
    (hrunning : (step.report config moment args).status = .running) :
    step.status = .running ∧
      ¬(args.endsRun = true ∧ step.workerRunning = some args.worker) := by
  have hran : step.status = .running := by
    unfold Step.report at hrunning
    split at hrunning
    · rcases Step.settle_running hrunning with h | h
      · exact hstarts (newStatus_running.mp h)
      · exact h
    · exact hrunning
  refine ⟨hran, fun ⟨hends, howner⟩ => ?_⟩
  have haccepts : step.acceptsReport args = true := by
    unfold AddStepArgs.endsRun at hends
    unfold Step.acceptsReport AddStepArgs.startedARun
    cases hcase : args.status <;> simp_all
  have hnew : args.newStatus ≠ .running ∧ args.newStatus ≠ .disabled := by
    unfold AddStepArgs.endsRun at hends
    unfold AddStepArgs.newStatus
    cases hcase : args.status <;> simp_all
  unfold Step.report at hrunning
  rw [if_pos haccepts] at hrunning
  have hignores : step.ignores args.newStatus = false := by
    simp [Step.ignores, hran, hnew.2]
  rcases Step.settle_status_cases step (some config) moment.now args.newStatus hignores with
    h | ⟨-, h⟩
  · exact hnew.1 (h.symm.trans hrunning)
  · rw [h] at hrunning
    cases hrunning

/-- A report puts no step in a batch. -/
theorem report_not_batchRunning {step : Step} (hstatus : step.status ≠ .batchRunning)
    (hargs : args.status ≠ .batchRunning) :
    (step.report config moment args).status ≠ .batchRunning := by
  have hnew : args.newStatus ≠ .batchRunning := by
    unfold AddStepArgs.newStatus
    split
    · exact fun h => by cases h
    · exact hargs
  unfold Step.report
  split
  swap
  · exact hstatus
  by_cases hignores : step.ignores args.newStatus = true
  · rw [Step.settle_of_ignores _ _ _ _ hignores]
    exact hstatus
  · intro h
    rcases Step.settle_status_cases step (some config) moment.now args.newStatus
      (by simpa using hignores) with hsame | ⟨-, hdisabled⟩
    · exact hnew (hsame.symm.trans h)
    · rw [hdisabled] at h
      cases h

section Request

variable (hstored : s.Stored) (hsingle : s.Single) (hclaims : s.ClaimsOwn args)
variable (hget : s.getStep args.stepId = some ref)
variable (haccepts : Accepts config moment args ref enabled s t)
include hstored hsingle hclaims hget haccepts

theorem single_accepted : t.Single := by
  obtain ⟨hstatus, -, hbatch, hremove⟩ := openedStep_parts moment hclaims hget
  have hfiled := hstored.index.filed hget
  have hbatch : (s.openedStep moment args ref).batchId = none :=
    hbatch.trans (hsingle.batchId ref hfiled)
  obtain ⟨htargetBatch, htargetRemove⟩ := haccepts.target_fields
  obtain ⟨hreportBatch, hreportRemove⟩ :=
    unstamped_report (s.openedStep moment args ref) config moment args hbatch
  have hother : ∀ other, t.Filed other → other ≠ ref →
      (s.Filed other ∧ (t.stepAt other).life = (s.stepAt other).life) ∨
        ∃ id, (t.stepAt other).core = (placeholder config moment args id).core := by
    intro other hleft hne
    rcases haccepts.filed hstored hleft with h | ⟨-, h⟩
    · exact .inl ⟨h, haccepts.other_life hsingle (hstored.filed_lt h) hne⟩
    · exact .inr h
  refine ⟨fun other hleft => ?_, fun other hleft => ?_, fun other hleft hrunning => ?_⟩ <;>
    by_cases hne : other = ref
  · rw [hne, htargetBatch, hreportBatch]
  · rcases hother other hleft hne with ⟨hold, hlife⟩ | ⟨id, hcore⟩
    · exact (Step.life_parts hlife).2.2.1.trans (hsingle.batchId other hold)
    · exact (congrArg Step.batchId hcore :)
  · rw [hne, haccepts.target_status]
    exact report_not_batchRunning (hstatus ▸ hsingle.status ref hfiled) hclaims.2.1
  · rcases hother other hleft hne with ⟨hold, hlife⟩ | ⟨id, hcore⟩
    · rw [(Step.life_parts hlife).1]
      exact hsingle.status other hold
    · have hunknown : (t.stepAt other).status = .unknown := (congrArg Step.status hcore :)
      rw [hunknown]
      exact fun h => by cases h
  · rw [hne, htargetRemove, hreportRemove, hremove]
  · rcases hother other hleft hne with ⟨hold, hlife⟩ | ⟨id, hcore⟩
    · obtain ⟨hsame, -, -, hremains⟩ := Step.life_parts hlife
      exact hremains.trans (hsingle.running other hold (hsame ▸ hrunning))
    · exact (congrArg Step.remove hcore :)

theorem staked_accepted (hstaked : s.Staked assistants)
    (hassistant : args.assistant = true → assistants args.worker = true) :
    t.Staked assistants := by
  obtain ⟨-, -, hbatch, hremove⟩ := openedStep_parts moment hclaims hget
  have hfiled := hstored.index.filed hget
  have hbatch : (s.openedStep moment args ref).batchId = none :=
    hbatch.trans (hsingle.batchId ref hfiled)
  have htarget : (t.stepAt ref).remove = none := by
    rw [haccepts.target_fields.2,
      (unstamped_report (s.openedStep moment args ref) config moment args hbatch).2, hremove]
  have hextends := haccepts.extends hstored hfiled
  have hkept : ∀ worker, assistants worker = false → ∀ other ∈ (s.workerAt worker).steps,
      t.Filed other ∧ worker ∈ (t.stepAt other).stakeholders ∧ (t.stepAt other).remove = none := by
    intro worker hordinary other hlisted
    obtain ⟨hold, hstake, hunmarked⟩ := hstaked worker hordinary other hlisted
    refine ⟨hextends.filed other hold, ?_, ?_⟩
    · rw [haccepts.stakeholders other (hstored.filed_lt hold)]
      split
      · exact Finset.mem_insert_of_mem hstake
      · exact hstake
    · by_cases hne : other = ref
      · rw [hne, htarget]
      · have hlife := haccepts.other_life hsingle (hstored.filed_lt hold) hne
        exact (Step.life_parts hlife).2.2.2.trans hunmarked
  intro worker hordinary other hlisted
  rw [haccepts.workerAt] at hlisted
  split at hlisted
  swap
  · exact hkept worker hordinary other hlisted
  rename_i hregisters
  obtain ⟨hregisters, rfl⟩ := hregisters
  simp only [OrderedSet.mem_rehash, OrderedSet.mem_add] at hlisted
  rcases hlisted with rfl | hlisted
  swap
  · exact hkept args.worker hordinary other hlisted
  refine ⟨hextends.filed other hfiled, ?_, htarget⟩
  have hholds : args.holds enabled = true := by
    have hplain : args.assistant = false := by
      by_contra h
      rw [hassistant (by simpa using h)] at hordinary
      cases hordinary
    simp only [AddStepArgs.registers, Bool.and_eq_true] at hregisters
    simp only [AddStepArgs.holds, hregisters.2, hplain, Bool.not_false, Bool.and_self]
  rw [haccepts.stakeholders other (hstored.filed_lt hfiled), if_pos ⟨hholds, .inl rfl⟩]
  exact Finset.mem_insert_self ..

/-- A run that the report is not about goes on. -/
theorem runsFor_accepted (hruns : s.RunsFor id worker)
    (hnew : args.hasNewDeps = true → args.stepId = id → args.worker = worker)
    (hends : ¬(args.endsRun = true ∧ args.stepId = id ∧ args.worker = worker)) :
    t.RunsFor id worker := by
  obtain ⟨other, hrow, hrunning, howner⟩ := hruns
  refine ⟨other, haccepts.keeps hrow, ?_⟩
  by_cases hne : other = ref
  · subst hne
    have hsame : args.stepId = id :=
      (hstored.index.step_id hget).symm.trans (hstored.index.step_id hrow)
    obtain ⟨hstatus, hworker, -⟩ := openedStep_parts moment hclaims hget
    rw [haccepts.target_status, haccepts.target_owner, hworker]
    refine ⟨report_goes_on (hstatus.trans hrunning) (hworker.trans howner) (fun h =>
      ⟨hclaims.2.2.2 h, hnew h hsame⟩) fun h => hends ⟨h.1, hsame, h.2⟩, howner⟩
  · have hlife := haccepts.other_life hsingle
      (hstored.filed_lt (hstored.index.filed hrow)) hne
    obtain ⟨hstatus, hworker, -⟩ := Step.life_parts hlife
    exact ⟨hstatus.trans hrunning, hworker.trans howner⟩

/-- A run was there before, and it is not the one that the report ends. -/
theorem runsFor_of_accepted (hruns : t.RunsFor id worker) :
    s.RunsFor id worker ∧
      ¬(args.endsRun = true ∧ args.stepId = id ∧ args.worker = worker) := by
  obtain ⟨other, hrow, hrunning, howner⟩ := hruns
  have hold : s.getStep id = some other := by
    rcases haccepts.fresh hrow with h | ⟨-, -, -, -, hcore, -⟩
    · exact h
    · have hunknown : (t.stepAt other).status = .unknown := (congrArg Step.status hcore :)
      rw [hunknown] at hrunning
      cases hrunning
  by_cases hne : other = ref
  · subst hne
    obtain ⟨hstatus, hworker, -⟩ := openedStep_parts moment hclaims hget
    rw [haccepts.target_status] at hrunning
    rw [haccepts.target_owner, hworker] at howner
    obtain ⟨hran, hlasts⟩ := report_went_on (fun hclaim => by
      obtain ⟨ref, hget', hran, -⟩ := hclaims.2.2.1 hclaim
      obtain rfl : other = ref := Option.some.inj (hget.symm.trans hget')
      exact hstatus.trans hran) hrunning
    refine ⟨⟨other, hold, hstatus.symm.trans hran, howner⟩, ?_⟩
    rintro ⟨hends, -, hsame⟩
    exact hlasts ⟨hends, by rw [hworker, howner, hsame]⟩
  · have hlt := hstored.filed_lt (hstored.index.filed hold)
    obtain ⟨hstatus, hworker, -⟩ := Step.life_parts (haccepts.other_life hsingle hlt hne)
    refine ⟨⟨other, hold, hstatus ▸ hrunning, hworker ▸ howner⟩, ?_⟩
    rintro ⟨-, hsame, -⟩
    rw [← hsame, hget] at hold
    exact hne (Option.some.inj hold).symm

end Request

end Accepts

/-! ### Handing out -/

/-- An assistant is handed no step that is marked for removal. -/
def StartsUnmarked (env : Env) (s : Scheduler) (moment : Moment) (args : GetWorkArgs) : Prop :=
  args.assistant = true →
    ∀ ref ∈ ((env.ranked s moment args).selectWork args env.config moment.now
        ((env.received s moment args).lostStep args)).picks,
      ((env.ranked s moment args).stepAt ref).remove = none

instance (env : Env) (s : Scheduler) (moment : Moment) (args : GetWorkArgs) :
    Decidable (StartsUnmarked env s moment args) := by
  unfold StartsUnmarked; infer_instance

section GetWork

variable {args : GetWorkArgs}

/-- One round of a worker without batchers. -/
theorem considerStep_unbatched (hnone : s.stepBatchers.get? args.worker = none) (used : Resources)
    {selection : Selection}
    (hempty : selection.batchedSteps = [] ∧ selection.batchedParams = none) (ref : Ref) :
    (s.considerStep args used selection ref).batchedSteps = [] ∧
      (s.considerStep args used selection ref).batchedParams = none := by
  have hbatcher : (s.getBatcher args.worker (s.stepAt ref).family).batchedArgs = [] := by
    simp only [getBatcher, Dict.getD, hnone, Option.getD_none]
    rfl
  obtain ⟨-, hrbatched, hrparams⟩ := reserveRunning_keeps s selection ref
  have hreserved : (s.reserveRunning selection ref).batchedSteps = [] ∧
      (s.reserveRunning selection ref).batchedParams = none :=
    ⟨hrbatched.trans hempty.1, hrparams.trans hempty.2⟩
  unfold considerStep
  split
  · unfold extendBatch
    rw [hempty.2]
    exact hempty
  · dsimp only
    split
    swap
    · exact hreserved
    split
    · unfold chooseStep
      simp only [hbatcher, List.isEmpty_nil, Bool.not_true, Bool.false_and, Bool.false_eq_true,
        if_false]
      exact hreserved
    · obtain ⟨-, hgbatched, hgparams⟩ :=
        reserveGreedily_keeps s args (s.reserveRunning selection ref) ref
      exact ⟨hgbatched.trans hreserved.1, hgparams.trans hreserved.2⟩

theorem foldl_considerStep_unbatched (hnone : s.stepBatchers.get? args.worker = none)
    (used : Resources) (refs : List Ref) (selection : Selection)
    (hempty : selection.batchedSteps = [] ∧ selection.batchedParams = none) :
    (refs.foldl (s.considerStep args used) selection).batchedSteps = [] := by
  induction refs generalizing selection with
  | nil => exact hempty.1
  | cons ref rest ih => exact ih _ (considerStep_unbatched hnone used hempty ref)

/-- A worker without batchers gets no batch. -/
theorem batchedSteps_of_no_batcher (hnone : s.stepBatchers.get? args.worker = none)
    (config : Config) (now : Time) (lost : Option Ref) :
    (s.selectWork args config now lost).batchedSteps = [] := by
  unfold selectWork
  exact foldl_considerStep_unbatched hnone _ _ _ ⟨rfl, rfl⟩

theorem stepBatchers_ranked (hsound : s.Sound) (env : Env) (moment : Moment)
    (args : GetWorkArgs) : (env.ranked s moment args).stepBatchers = s.stepBatchers := by
  obtain ⟨-, hreceives, -, -⟩ := receiveRequest_spec env moment args hsound.stored hsound.retriable
  obtain ⟨-, hprepares⟩ := prepares_ranked env moment args hsound.stored hsound.retriable
  obtain ⟨u, hgreets, hsame⟩ := hprepares.greeted
  rw [hsame.stepBatchers, hgreets.stepBatchers]
  cases hprune : env.config.pruneOnGetWork with
  | false => rw [(hreceives.greets hprune).stepBatchers]
  | true =>
      obtain ⟨pruned, hprunes, hgreeted⟩ := hreceives.prunes hprune
      obtain ⟨swept, removed, hsweeps, hdrops, -⟩ := hprunes.outcome
      rw [hgreeted.stepBatchers, hdrops.surroundings.stepBatchers, hsweeps.same.stepBatchers,
        hprunes.inactivates.stepBatchers]

theorem unmoved_received (s : Scheduler) (env : Env) (moment : Moment) (args : GetWorkArgs)
    (hprune : env.config.pruneOnGetWork = false) : Unmoved s (env.received s moment args) := by
  rw [received_unpruned s env moment args hprune]
  exact (greets_updateWorker s moment.now args.worker true).rests.unmoved

/-- Where `get_work` prunes, nothing else moves a step before the search. -/
theorem unmoved_received_pruned (hsound : s.Sound) (env : Env) (moment : Moment)
    (args : GetWorkArgs) (hprune : env.config.pruneOnGetWork = true) :
    ∃ t, (prune env.config moment.now).exec s = (.ok (), t) ∧ Prunes env.config moment.now s t ∧
      Unmoved t (env.received s moment args) := by
  obtain ⟨pruned, hrun, hreceived⟩ :=
    received_pruned hsound.stored hsound.retriable env moment args hprune
  obtain ⟨t, hrun', hprunes⟩ := prune_spec hsound.stored hsound.retriable env.config moment.now
  obtain rfl : pruned = t := (Prod.mk.inj (hrun.symm.trans hrun')).2
  refine ⟨pruned, hrun, hprunes, ?_⟩
  rw [hreceived]
  exact (greets_updateWorker pruned moment.now args.worker true).rests.unmoved

theorem Ordered.received (hordered : s.Ordered assistants) (env : Env) (moment : Moment)
    (args : GetWorkArgs) : (env.received s moment args).Ordered assistants := by
  obtain ⟨hsound, hattended, hsingle, hstaked⟩ := hordered
  obtain ⟨-, hreceives, -, -⟩ := receiveRequest_spec env moment args hsound.stored hsound.retriable
  suffices hrest : (env.received s moment args).Single ∧
      (env.received s moment args).Staked assistants from
    ⟨hsound.receives hreceives, env.received_attended hsound hattended moment args, hrest.1,
      hrest.2⟩
  cases hprune : env.config.pruneOnGetWork with
  | false =>
      have hunmoved := unmoved_received s env moment args hprune
      exact ⟨hunmoved.single hsingle, hunmoved.staked hstaked⟩
  | true =>
      obtain ⟨t, hrun, hprunes, hunmoved⟩ := unmoved_received_pruned hsound env moment args hprune
      exact ⟨hunmoved.single (single_pruned hsound hsingle hrun hprunes),
        hunmoved.staked (staked_pruned hsound hsingle hrun hprunes hstaked)⟩

/-- The runs that `get_work` finds are those of before. -/
theorem runsFor_of_received (hsound : s.Sound)
    (hruns : (env.received s moment args).RunsFor id worker) : s.RunsFor id worker := by
  cases hprune : env.config.pruneOnGetWork with
  | false => exact (unmoved_received s env moment args hprune).runsFor.mp hruns
  | true =>
      obtain ⟨t, -, hprunes, hunmoved⟩ := unmoved_received_pruned hsound env moment args hprune
      exact runsFor_of_pruned hprunes (hunmoved.runsFor.mp hruns)

theorem runsFor_received_getWork (hordered : s.Ordered assistants) (hruns : s.RunsFor id worker)
    (halive : env.config.pruneOnGetWork = true →
      (s.workerAt worker).prune env.config moment.now = false) :
    (env.received s moment args).RunsFor id worker := by
  obtain ⟨hsound, hattended, hsingle, -⟩ := hordered
  cases hprune : env.config.pruneOnGetWork with
  | false => exact (unmoved_received s env moment args hprune).runsFor.mpr hruns
  | true =>
      obtain ⟨t, hrun, hprunes, hunmoved⟩ := unmoved_received_pruned hsound env moment args hprune
      apply hunmoved.runsFor.mpr
      exact runsFor_pruned hsound hattended hsingle hrun hprunes hruns (halive hprune)

theorem Ordered.ranked (hordered : s.Ordered assistants) (env : Env) (moment : Moment)
    (args : GetWorkArgs) :
    (env.ranked s moment args).Ordered assistants ∧
      Unmoved (env.received s moment args) (env.ranked s moment args) := by
  have hreceived := hordered.received env moment args
  obtain ⟨-, hprepares, hsame⟩ :=
    ranked_noted env moment args hordered.sound.stored hordered.sound.retriable
  have hunmoved := hprepares.unmoved hreceived.sound.index hreceived.single
  exact ⟨⟨env.ranked_sound hordered.sound moment args,
    hreceived.attended.continues (hprepares.continues hsame),
    hunmoved.single hreceived.single, hunmoved.staked hreceived.staked⟩, hunmoved⟩

theorem assists_ranked (hsound : s.Sound) (env : Env) (moment : Moment)
    (hassistant : args.assistant = true) :
    (env.ranked s moment args).Assists args.worker := by
  obtain ⟨-, -, hnoted⟩ := ranked_noted env moment args hsound.stored hsound.retriable
  unfold Assists
  rw [hnoted.workerAt, noted, if_pos hassistant, workerAt_updateWorkerAt, if_pos rfl]
  rfl

/-- Workers that say what they are find only steps of the table. -/
theorem Ordered.looksAtFiled (hordered : s.Ordered assistants) (env : Env) (moment : Moment)
    (hassistant : args.assistant = assistants args.worker) :
    env.LooksAtFiledSteps s moment args := by
  intro _ ref hrelevant _
  obtain ⟨⟨hsound, -, -, hstaked⟩, -⟩ := hordered.ranked env moment args
  cases hplain : assistants args.worker with
  | false =>
      apply hsound.filed_relevantSteps _ hrelevant
      intro statuses listed hlisted
      unfold Worker.getSteps at hlisted
      dsimp only at hlisted
      split_ifs at hlisted
      · exact (hstaked args.worker hplain listed (mem_selfSteps.mp hlisted).1).1
      · exact (hsound.index.mem_stateSteps.mp hlisted).1.1
  | true =>
      have hassists := assists_ranked hordered.sound env moment (hassistant.trans hplain)
      have hactive : ((env.ranked s moment args).workerAt args.worker).isTrivialWorker
          (env.ranked s moment args) = false := by
        unfold Worker.isTrivialWorker
        rw [show Worker.assistant _ = true from hassists]
        rfl
      unfold relevantSteps at hrelevant
      dsimp only at hrelevant
      rw [hactive] at hrelevant
      split at hrelevant
      · cases hrelevant
      · exact (hsound.index.mem_activeStepsByStatus.mp hrelevant).1

/-- What a worker is handed it has a stake in, and the step is not marked for removal. -/
theorem Ordered.picks_tended (hordered : s.Ordered assistants)
    (hassistant : args.assistant = assistants args.worker)
    (hbatcher : s.stepBatchers.get? args.worker = none)
    (hunmarked : StartsUnmarked env s moment args)
    (henabled : ((env.received s moment args).workerAt args.worker).enabled = true)
    (hpick : ref ∈ ((env.ranked s moment args).selectWork args env.config moment.now
      ((env.received s moment args).lostStep args)).picks) :
    (env.ranked s moment args).Attends ref args.worker ∧
      ((env.ranked s moment args).stepAt ref).remove = none := by
  have hlooks := hordered.looksAtFiled env moment hassistant
  obtain ⟨⟨hsound, hattended, hsingle, hstaked⟩, -⟩ := hordered.ranked env moment args
  obtain ⟨hfiled, hcases⟩ := picks_filed env moment args ref hordered.sound.stored
    hordered.sound.retriable henabled hlooks hpick
  rcases hcases with hpending | ⟨-, hrunning, howner⟩
  swap
  · exact ⟨hattended.owner ref hfiled (by rw [hrunning]; rfl) _ howner,
      hsingle.running ref hfiled hrunning⟩
  cases hplain : assistants args.worker with
  | true =>
      have hself := hassistant.trans hplain
      exact ⟨.inr (assists_ranked hordered.sound env moment hself), hunmarked hself ref hpick⟩
  | false =>
      have hplainArgs : args.assistant = false := hassistant.trans hplain
      have hnoBatch := batchedSteps_of_no_batcher
        ((congrArg (Dict.get? · args.worker) (stepBatchers_ranked hordered.sound env moment
          args)).trans hbatcher) env.config moment.now ((env.received s moment args).lostStep args)
      rw [Selection.picks, hnoBatch, if_neg (by simp), Option.mem_toList] at hpick
      have hselected := selectWork_selected (env.ranked s moment args) args env.config moment.now
        ((env.received s moment args).lostStep args)
      have hworker : args.worker ∈ ((env.ranked s moment args).stepAt ref).workers := by
        cases hlost : (env.received s moment args).lostStep args with
        | none =>
            rw [hlost] at hselected hpick
            simpa [hplainArgs] using (hselected.best rfl ref hpick).2.2.2
        | some taken =>
            obtain ⟨hbest, -⟩ := hselected.taken taken hlost
            obtain rfl : taken = ref := Option.some.inj (hbest.symm.trans hpick)
            have hlostBy := env.lostBy_of_lostStep hordered.sound hlost
            rw [hlostBy.1] at hpending
            cases hpending
      obtain ⟨-, hstake, hremove⟩ := hstaked args.worker hplain ref
        (hsound.rostered.lists hfiled hworker).2
      exact ⟨.inl hstake, hremove⟩

section Handed

variable {best : Ref} {now : Time}
variable (hands : Hands (fun step => step.handed worker now) [best] s t)
include hands

theorem single_handed (hsingle : s.Single) (hfiled : s.Filed best)
    (hfree : (s.stepAt best).remove = none) : t.Single := by
  constructor <;> intro ref hleft <;> by_cases hne : ref = best
  · rw [hne, hands.single_self, Step.batchId_handed]
    exact hsingle.batchId best hfiled
  · rw [hands.single_other hne]
    exact hsingle.batchId ref ((hands.single_filed ref).mp hleft)
  · rw [hne, hands.single_self, Step.handed_status]
    exact fun h => by cases h
  · rw [hands.single_other hne]
    exact hsingle.status ref ((hands.single_filed ref).mp hleft)
  · intro _
    rw [hne, hands.single_self, Step.remove_handed]
    exact hfree
  · rw [hands.single_other hne]
    exact hsingle.running ref ((hands.single_filed ref).mp hleft)

theorem staked_handed (hstaked : s.Staked assistants) : t.Staked assistants := by
  intro other hordinary ref hlisted
  rw [hands.same.workerAt] at hlisted
  obtain ⟨hleft, hstake⟩ := hstaked other hordinary ref hlisted
  refine ⟨(hands.single_filed ref).mpr hleft, ?_⟩
  by_cases hne : ref = best
  · rw [hne] at hstake ⊢
    rw [hands.single_self, Step.stakeholders_handed, Step.remove_handed]
    exact hstake
  · rw [hands.single_other hne]
    exact hstake

/-- The step runs for the worker that it is handed to. -/
theorem handed_runs (hrow : s.getStep id = some best) : t.RunsFor id worker := by
  refine ⟨best, (hands.same.getStep id).trans hrow, ?_⟩
  rw [hands.single_self]
  exact ⟨Step.handed_status .., rfl⟩

theorem runsFor_handed {other : WorkerId} (hruns : s.RunsFor id other)
    (hown : (s.stepAt best).status = .running → (s.stepAt best).workerRunning = some worker) :
    t.RunsFor id other := by
  obtain ⟨ref, hrow, hrunning, howner⟩ := hruns
  by_cases hne : ref = best
  · subst hne
    obtain rfl : worker = other := Option.some.inj ((hown hrunning).symm.trans howner)
    exact handed_runs hands hrow
  · refine ⟨ref, (hands.same.getStep id).trans hrow, ?_⟩
    rw [hands.single_other hne]
    exact ⟨hrunning, howner⟩

theorem runsFor_of_handed {other : WorkerId} (hindex : s.Indexed) (hruns : t.RunsFor id other) :
    s.RunsFor id other ∨ ((s.stepAt best).id = id ∧ other = worker) := by
  obtain ⟨ref, hrow, hrunning, howner⟩ := hruns
  rw [hands.same.getStep] at hrow
  by_cases hne : ref = best
  · subst hne
    rw [hands.single_self] at howner
    exact .inr ⟨hindex.step_id hrow, (Option.some.inj howner).symm⟩
  · rw [hands.single_other hne] at hrunning howner
    exact .inl ⟨ref, hrow, hrunning, howner⟩

end Handed

/-- What `get_work` comes to, with the step that it hands out. -/
structure Gives (env : Env) (assistants : WorkerId → Bool) (s : Scheduler) (moment : Moment)
    (args : GetWorkArgs) (handed : Option StepId) (t : Scheduler) : Prop where
  single : t.Single
  staked : t.Staked assistants
  /-- A run that is new is the one that is handed out. -/
  started : ∀ {id worker}, t.RunsFor id worker →
    s.RunsFor id worker ∨ (handed = some id ∧ worker = args.worker)
  kept : ∀ {id worker}, s.RunsFor id worker → (env.config.pruneOnGetWork = true →
    (s.workerAt worker).prune env.config moment.now = false) → t.RunsFor id worker
  runs : ∀ {id}, handed = some id → t.RunsFor id args.worker
  /-- What is handed out did not run, unless the worker has lost it. -/
  free : ∀ {id worker}, handed = some id → s.RunsFor id worker →
    (env.config.pruneOnGetWork = true →
      (s.workerAt worker).prune env.config moment.now = false) →
    worker = args.worker ∧ ∃ ids ∈ args.currentSteps, id ∉ ids

/-- A request that hands out nothing. -/
theorem Gives.nothing (hordered : s.Ordered assistants)
    (hunmoved : Unmoved (env.received s moment args) t) :
    Gives env assistants s moment args none t := by
  have hreceived := hordered.received env moment args
  constructor
  · exact hunmoved.single hreceived.single
  · exact hunmoved.staked hreceived.staked
  · exact fun h => .inl (runsFor_of_received hordered.sound (hunmoved.runsFor.mp h))
  · exact fun h halive => hunmoved.runsFor.mpr (runsFor_received_getWork hordered h halive)
  · exact fun h => by cases h
  · exact fun h => by cases h

/-- The step that is handed out starts to run. -/
theorem Gives.single_step (hordered : s.Ordered assistants)
    (hassistant : args.assistant = assistants args.worker)
    (hbatcher : s.stepBatchers.get? args.worker = none)
    (hunmarked : StartsUnmarked env s moment args)
    (henabled : ((env.received s moment args).workerAt args.worker).enabled = true)
    {counted : Scheduler} {best : Ref} (hgreets : Greets (env.ranked s moment args) counted)
    (hpick : best ∈ ((env.ranked s moment args).selectWork args env.config moment.now
      ((env.received s moment args).lostStep args)).picks)
    (hands : Hands (fun step => step.handed args.worker moment.now) [best] counted t) :
    Gives env assistants s moment args (some (counted.stepAt best).id) t := by
  obtain ⟨hranked, hreturn⟩ := hordered.ranked env moment args
  have hunmoved : Unmoved (env.received s moment args) counted :=
    hreturn.trans hgreets.rests.unmoved
  obtain ⟨-, hfree⟩ := hordered.picks_tended hassistant hbatcher hunmarked henabled hpick
  obtain ⟨hfiled, hcases⟩ := picks_filed env moment args best hordered.sound.stored
    hordered.sound.retriable henabled (hordered.looksAtFiled env moment hassistant) hpick
  have hreceived := hordered.received env moment args
  have hsingle := hunmoved.single hreceived.single
  have hstaked := hunmoved.staked hreceived.staked
  have hcounted : counted.Sound := hranked.sound.greets hgreets
  have hrow : counted.getStep (counted.stepAt best).id = some best :=
    (hgreets.filed best).mpr hfiled
  -- a step that runs already is one that its own worker has lost
  have hlost : (counted.stepAt best).status = .running →
      (counted.stepAt best).workerRunning = some args.worker ∧
        ∃ ids ∈ args.currentSteps, (counted.stepAt best).id ∉ ids := by
    intro hrunning
    rw [hgreets.stepAt] at hrunning ⊢
    rcases hcases with hpending | ⟨hlost, -, hown⟩
    · rw [hrunning] at hpending
      cases hpending
    · obtain ⟨-, -, ids, hids, hnot⟩ := env.lostBy_of_lostStep hordered.sound hlost
      exact ⟨hown, ids, hids, hnot⟩
  constructor
  · exact single_handed hands hsingle hrow (by rwa [hgreets.stepAt])
  · exact staked_handed hands hstaked
  · intro id worker hruns
    rcases runsFor_of_handed hands hcounted.index hruns with hran | ⟨hid, hworker⟩
    · exact .inl (runsFor_of_received hordered.sound (hunmoved.runsFor.mp hran))
    · exact .inr ⟨congrArg some hid, hworker⟩
  · exact fun h halive => runsFor_handed hands
      (hunmoved.runsFor.mpr (runsFor_received_getWork hordered h halive)) fun h => (hlost h).1
  · intro id hhanded
    cases hhanded
    exact handed_runs hands hrow
  · intro id worker hhanded hran halive
    cases hhanded
    obtain ⟨ref, hrow', hrunning, hworker⟩ :=
      hunmoved.runsFor.mpr (runsFor_received_getWork hordered hran halive)
    obtain rfl : best = ref := Option.some.inj (hrow.symm.trans hrow')
    obtain ⟨hown, hknown⟩ := hlost hrunning
    exact ⟨Option.some.inj (hworker.symm.trans hown), hknown⟩

/-- A call of `get_work` moves no run, or it hands out one step.  A step that the worker has
lost is handed out if there is one. -/
theorem Ordered.getWork_cases (hordered : s.Ordered assistants)
    (hassistant : args.assistant = assistants args.worker)
    (hbatcher : s.stepBatchers.get? args.worker = none) :
    (handedStep (env.outcome s ⟨moment, .getWork args⟩) = none ∧
      Unmoved (env.received s moment args) (env.after s ⟨moment, .getWork args⟩) ∧
      (((env.received s moment args).workerAt args.worker).enabled = true →
        (env.outcome s ⟨moment, .getWork args⟩).isOk = true →
        (env.received s moment args).lostStep args = none)) ∨
    ∃ counted best, ((env.received s moment args).workerAt args.worker).enabled = true ∧
      Greets (env.ranked s moment args) counted ∧
      best ∈ ((env.ranked s moment args).selectWork args env.config moment.now
        ((env.received s moment args).lostStep args)).picks ∧
      (∀ lost, (env.received s moment args).lostStep args = some lost → best = lost) ∧
      Hands (fun step => step.handed args.worker moment.now) [best] counted
        (env.after s ⟨moment, .getWork args⟩) ∧
      handedStep (env.outcome s ⟨moment, .getWork args⟩) = some (counted.stepAt best).id := by
  have hsound := hordered.sound
  by_cases henabled : ((env.received s moment args).workerAt args.worker).enabled = true
  swap
  · obtain ⟨hafter, houtcome⟩ := hsound.after_getWork_disabled env moment henabled
    rw [hafter, houtcome]
    exact .inl ⟨rfl, ⟨fun _ => rfl, fun _ => rfl, fun _ => rfl, fun _ => rfl⟩,
      fun h => absurd h henabled⟩
  obtain ⟨-, hreturn⟩ := hordered.ranked env moment args
  obtain ⟨-, hgreets, -⟩ := countPending_meets moment args.worker (env.ranked s moment args)
  have hselected := selectWork_selected (env.ranked s moment args) args env.config moment.now
    ((env.received s moment args).lostStep args)
  rcases hsound.after_getWork_counts env moment (hordered.looksAtFiled env moment hassistant)
    henabled with ⟨error, hcount, houtcome⟩ | ⟨pending, counted, work, hcount, houtcome, hhands, -⟩
  · simp only [Program.final, hcount] at hgreets
    rw [houtcome]
    exact .inl ⟨rfl, hreturn.trans (Greets.rests hgreets).unmoved, fun _ h => by cases h⟩
  simp only [Program.final, hcount] at hgreets
  replace hgreets : Greets (env.ranked s moment args) counted := hgreets
  rw [houtcome]
  generalize env.after s ⟨moment, .getWork args⟩ = t at hhands ⊢
  have hnoBatch := batchedSteps_of_no_batcher
    ((congrArg (Dict.get? · args.worker) (stepBatchers_ranked hsound env moment args)).trans
      hbatcher) env.config moment.now ((env.received s moment args).lostStep args)
  cases hhands with
  | nothing hbest =>
      refine .inl ⟨rfl, hreturn.trans hgreets.rests.unmoved, fun _ _ => ?_⟩
      cases hlost : (env.received s moment args).lostStep args with
      | none => rfl
      | some lost =>
          obtain ⟨htaken, -⟩ := hselected.taken lost hlost
          rw [hbest] at htaken
          cases htaken
  | single hbest hsize hands =>
      refine .inr ⟨counted, _, henabled, hgreets, ?_, fun lost hlost => ?_, hands, rfl⟩
      · rw [Selection.picks, if_neg hsize, hbest]
        exact List.mem_singleton_self _
      · obtain ⟨htaken, -⟩ := hselected.taken lost hlost
        exact Option.some.inj (hbest.symm.trans htaken)
  | batch hsize =>
      rw [hnoBatch] at hsize
      cases hsize

/-- The whole of `get_work`. -/
theorem Ordered.gives (hordered : s.Ordered assistants)
    (hassistant : args.assistant = assistants args.worker)
    (hbatcher : s.stepBatchers.get? args.worker = none)
    (hunmarked : StartsUnmarked env s moment args) :
    Gives env assistants s moment args (handedStep (env.outcome s ⟨moment, .getWork args⟩))
      (env.after s ⟨moment, .getWork args⟩) := by
  rcases hordered.getWork_cases hassistant hbatcher with ⟨hnone, hunmoved, -⟩ |
    ⟨counted, best, henabled, hgreets, hpick, -, hands, hhanded⟩
  · rw [hnone]
    exact .nothing hordered hunmoved
  · rw [hhanded]
    exact .single_step hordered hassistant hbatcher hunmarked henabled hgreets hpick hands

/-- What runs after `get_work` ran when the request had been received, or it is handed out. -/
theorem Ordered.runsFor_getWork (hordered : s.Ordered assistants)
    (hassistant : args.assistant = assistants args.worker)
    (hbatcher : s.stepBatchers.get? args.worker = none)
    (hruns : (env.after s ⟨moment, .getWork args⟩).RunsFor id worker) :
    (env.received s moment args).RunsFor id worker ∨
      (handedStep (env.outcome s ⟨moment, .getWork args⟩) = some id ∧ worker = args.worker) := by
  obtain ⟨hranked, hreturn⟩ := hordered.ranked env moment args
  rcases hordered.getWork_cases hassistant hbatcher with ⟨-, hunmoved, -⟩ |
    ⟨counted, best, -, hgreets, -, -, hands, hhanded⟩
  · exact .inl (hunmoved.runsFor.mp hruns)
  · have hcounted : counted.Sound := hranked.sound.greets hgreets
    rcases runsFor_of_handed hands hcounted.index hruns with hran | ⟨hid, hworker⟩
    · exact .inl ((hreturn.trans hgreets.rests.unmoved).runsFor.mp hran)
    · exact .inr ⟨hhanded.trans (congrArg some hid), hworker⟩

/-- A worker that does not know of one of its runs is handed one that it does not know of. -/
theorem Ordered.getWork_recovers (hordered : s.Ordered assistants)
    (hassistant : args.assistant = assistants args.worker)
    (hbatcher : s.stepBatchers.get? args.worker = none)
    (henabled : ((env.received s moment args).workerAt args.worker).enabled = true)
    (hanswer : (env.outcome s ⟨moment, .getWork args⟩).isOk = true) {known : List StepId}
    (hknown : args.currentSteps = some known)
    (hruns : (env.received s moment args).RunsFor id args.worker) (hunknown : id ∉ known) :
    ∃ found, handedStep (env.outcome s ⟨moment, .getWork args⟩) = some found ∧
      (env.received s moment args).RunsFor found args.worker ∧ found ∉ known := by
  have hindex := (hordered.received env moment args).sound.index
  obtain ⟨-, hreturn⟩ := hordered.ranked env moment args
  obtain ⟨lost, hlost⟩ : ∃ lost, (env.received s moment args).lostStep args = some lost := by
    obtain ⟨ref, hrow, hrunning, howner⟩ := hruns
    apply Option.ne_none_iff_exists'.mp
    intro hnone
    refine hindex.lostStep_none hnone ref ⟨hindex.filed hrow, hrunning, howner, known, hknown, ?_⟩
    rwa [hindex.step_id hrow]
  rcases hordered.getWork_cases hassistant hbatcher with ⟨-, -, hnothing⟩ |
    ⟨counted, best, -, hgreets, -, htaken, -, hhanded⟩
  · rw [hnothing henabled hanswer] at hlost
    cases hlost
  · obtain rfl : best = lost := htaken lost hlost
    obtain ⟨⟨hfiled, hrunning, howner, current, hcurrent, hmissing⟩, -⟩ :=
      hindex.lostStep_some hlost
    obtain rfl : known = current := Option.some.inj (hknown.symm.trans hcurrent)
    have hid : (counted.stepAt best).id = ((env.received s moment args).stepAt best).id :=
      (congrArg Step.id ((hreturn.trans hgreets.rests.unmoved).life best) :)
    rw [hid] at hhanded
    exact ⟨_, hhanded, ⟨best, hfiled, hrunning, howner⟩, hmissing⟩

end GetWork

end Scheduler

end Trun
