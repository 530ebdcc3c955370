import Trun.Scheduler.Marking

/-!
# Steps that somebody still needs

As long as marked steps stay abandoned, `prune` drops no step that somebody still needs, and
the dependencies of a step stay in the state while the worker that has added it is active.
-/

namespace Trun

open Program

namespace Scheduler

variable {s t u : Scheduler} {env : Env} {config : Config} {now : Time} {moment : Moment}
variable {ref : Ref}

/-! ## Stakes -/

/-- The worker has a stake in the step that the table has under the id. -/
def Stakes (s : Scheduler) (worker : WorkerId) (id : StepId) (ref : Ref) : Prop :=
  s.getStep id = some ref ∧ worker ∈ (s.stepAt ref).stakeholders

/-- The request is accepted and makes the worker a stakeholder of the dependencies. -/
def HoldsDependencies (s : Scheduler) (config : Config) (moment : Moment) (args : AddStepArgs)
    (ref : Ref) : Prop :=
  let received := s.receiveStep config moment args
  let enabled := (received.workerAt args.worker).enabled
  received.getStep args.stepId = some ref ∧
    (received.stepAt ref).dropsClaim config moment args enabled = false ∧
    ¬received.claimRaises args ref ∧ args.holds enabled = true

instance (s : Scheduler) (config : Config) (moment : Moment) (args : AddStepArgs) (ref : Ref) :
    Decidable (s.HoldsDependencies config moment args ref) := by
  unfold HoldsDependencies; infer_instance

/-- A step whose dependencies the worker holds. -/
theorem stakes_of_holds {args : AddStepArgs} {outcome : Except Raised Unit} (hsound : s.Sound)
    (hholds : s.HoldsDependencies config moment args ref)
    (hadds : AddsStep config moment args (s.receiveStep config moment args) outcome t) :
    ∀ dep ∈ (t.stepAt ref).deps, ∃ target, t.Stakes args.worker dep target := by
  obtain ⟨hget, hclaim, hstarts, hheld⟩ := hholds
  have hrstored := receiveStep_stored hsound.stored config moment args
  generalize s.receiveStep config moment args = received at *
  have haccepts : Accepts config moment args ref (received.workerAt args.worker).enabled
      received t := by
    cases hadds with
    | dropped hdropped =>
        rw [hdropped ref hget] at hclaim
        cases hclaim
    | accepted hget' _ _ haccepts =>
        obtain rfl := Option.some.inj (hget.symm.trans hget')
        exact haccepts
    | failed hget' _ hraises _ =>
        obtain rfl := Option.some.inj (hget.symm.trans hget')
        exact absurd hraises hstarts
  intro dep hdep
  obtain ⟨target, htarget⟩ := haccepts.present hheld dep hdep
  refine ⟨target, htarget, ?_⟩
  rcases haccepts.fresh htarget with hold | ⟨-, -, -, -, -, hstakeholders⟩
  · rw [haccepts.stakeholders target (hrstored.rows_allocated dep target hold),
      if_pos ⟨hheld, .inr ⟨dep, hdep, hold⟩⟩]
    exact Finset.mem_insert_self ..
  · rw [hstakeholders]
    exact Finset.mem_singleton_self _

/-- No step and no stake is lost. -/
def Clings (s t : Scheduler) : Prop :=
  ∀ id ref, s.getStep id = some ref →
    t.getStep id = some ref ∧ (s.stepAt ref).stakeholders ⊆ (t.stepAt ref).stakeholders

theorem Clings.refl (s : Scheduler) : Clings s s := fun _ _ hget => ⟨hget, subset_rfl⟩

theorem Clings.trans (hst : Clings s t) (htu : Clings t u) : Clings s u := by
  intro id ref hget
  obtain ⟨hmiddle, hfirst⟩ := hst id ref hget
  obtain ⟨hlast, hsecond⟩ := htu id ref hmiddle
  exact ⟨hlast, hfirst.trans hsecond⟩

theorem Clings.stakes (hclings : Clings s t) {worker : WorkerId} {id : StepId}
    (hstakes : s.Stakes worker id ref) : t.Stakes worker id ref :=
  (hclings id ref hstakes.1).imp_right fun hsubset => hsubset hstakes.2

/-- Writes that keep the rows and the stakeholders. -/
theorem clings_of_same (hget : ∀ id, t.getStep id = s.getStep id)
    (hstakeholders : ∀ ref, (t.stepAt ref).stakeholders = (s.stepAt ref).stakeholders) :
    Clings s t := fun id ref hrow => ⟨(hget id).trans hrow, (hstakeholders ref).ge⟩

theorem clings_of_plan (hget : ∀ id, t.getStep id = s.getStep id)
    (hplan : ∀ ref, (t.stepAt ref).plan = (s.stepAt ref).plan) : Clings s t :=
  clings_of_same hget fun ref => (congrArg Step.stakeholders (hplan ref) :)

theorem Greets.clings (hgreets : Greets s t) : Clings s t :=
  clings_of_same hgreets.getStep fun ref => by rw [hgreets.stepAt]

theorem Prepares.clings {args : GetWorkArgs} (hprepares : Prepares now args s t) :
    Clings s t := by
  refine clings_of_plan hprepares.getStep fun ref => ?_
  rw [hprepares.object]
  split
  · exact Step.withStatus_plan ..
  · rfl

theorem Hands.clings {change : Step → Step} {refs : List Ref} (hhands : Hands change refs s t)
    (hstakeholders : ∀ step, (change step).stakeholders = step.stakeholders) : Clings s t := by
  refine clings_of_same hhands.same.getStep fun ref => ?_
  rw [hhands.object]
  split
  · exact hstakeholders _
  · rfl

theorem HandsOut.clings {worker : WorkerId} {selection : Selection} {work : Work}
    (hhands : HandsOut env now worker selection s work t) : Clings s t := by
  have hkept : ∀ (step : Step) (status : Status),
      (step.withStatus now status).stakeholders = step.stakeholders := fun step status =>
    (congrArg Step.stakeholders (Step.withStatus_plan step now status) :)
  cases hhands with
  | nothing => exact .refl s
  | single _ _ hands => exact hands.clings fun step => hkept step .running
  | batch _ _ hands => exact hands.clings fun step => hkept step .batchRunning

theorem AddsStep.clings {args : AddStepArgs} {outcome : Except Raised Unit} (hstored : s.Stored)
    (hadds : AddsStep config moment args (s.receiveStep config moment args) outcome t) :
    Clings s t := by
  have hrstored := receiveStep_stored hstored config moment args
  have hreceipt := hstored.receipt config moment args
  have hreceived : Clings s (s.receiveStep config moment args) := fun id ref hget =>
    ⟨hreceipt.keeps hget, hreceipt.stepAt ref (hstored.rows_allocated id ref hget) ▸ subset_rfl⟩
  refine hreceived.trans ?_
  generalize s.receiveStep config moment args = received at *
  cases hadds with
  | dropped => exact .refl _
  | accepted _ _ _ haccepts =>
      refine fun id other hget => ⟨haccepts.keeps hget, ?_⟩
      rw [haccepts.stakeholders other (hrstored.rows_allocated id other hget)]
      split
      · exact Finset.subset_insert ..
      · exact subset_rfl
  | failed =>
      exact clings_of_same (fun _ => rfl) fun other => (stepAt_failedClaim _ args _ other).2.2.1

theorem Handles.clings {event : Event} {outcome : Except Raised Response} (hindex : s.Indexed)
    (hhandles : Handles env s event outcome t) (husers : event.request.isWorkers = false)
    (hload : event.request ≠ .load) : Clings s t := by
  cases hhandles with
  | serves hserves =>
      cases hserves with
      | adds | works | prunes => cases husers
      | rests hquiet =>
          obtain ⟨moment, request⟩ := event
          cases request <;> cases husers <;> cases hquiet
  | marks _ hsettles | forgives _ _ hsettles =>
      refine clings_of_plan hsettles.same.getStep fun other => ?_
      rw [hsettles.object]
      exact settled_plan ..
  | reEnables _ _ hreEnables =>
      refine clings_of_plan hreEnables.same.getStep fun other => ?_
      rw [hreEnables.object]
      split
      · rename_i hother
        rw [hother]
        exact Step.settle_plan ..
      · rfl
  | idle => exact .refl s
  | disables =>
      refine clings_of_same (getStep_disableWorker s _ _) fun other => ?_
      rw [stepAt_disableWorker hindex]
      split <;> rfl
  | dumps => exact clings_of_same (fun _ => rfl) fun _ => rfl
  | loads => exact absurd rfl hload

end Scheduler

open Scheduler

/-! ## Runs of the scheduler -/

namespace Env

variable (env : Env)

/-- The state once the request has pruned. -/
def pruned (s : Scheduler) (event : Event) : Scheduler :=
  if env.prunes event = true then env.after s ⟨event.moment, .prune⟩ else s

def PicksUnmarked (s : Scheduler) (moment : Moment) (args : GetWorkArgs) : Prop :=
  ((env.received s moment args).workerAt args.worker).enabled = true →
    ∀ ref ∈ ((env.ranked s moment args).selectWork args env.config moment.now
        ((env.received s moment args).lostStep args)).picks,
      ((env.ranked s moment args).stepAt ref).condemned = false

instance (s : Scheduler) (moment : Moment) (args : GetWorkArgs) :
    Decidable (env.PicksUnmarked s moment args) := by
  unfold PicksUnmarked; infer_instance

/-- The condition under which marked steps stay abandoned. -/
def KeepsMarksIdle (s : Scheduler) (event : Event) : Prop :=
  (env.prunes event = true →
    (s.pruneWorkers env.config event.moment.now).LeavesRuns env.config event.moment.now) ∧
  match event.request with
  | .addStep args =>
      let received := s.receiveStep env.config event.moment args
      ∀ ref ∈ received.getStep args.stepId,
        received.FindsUnmarked env.config event.moment args ref
  | .getWork args =>
      env.LooksAtFiledSteps s event.moment args ∧ env.PicksUnmarked s event.moment args
  | _ => True

instance (s : Scheduler) (event : Event) : Decidable (env.KeepsMarksIdle s event) := by
  obtain ⟨moment, request⟩ := event
  induction request using Request.casesOn <;> dsimp only [KeepsMarksIdle] <;> infer_instance

theorem KeepsMarksIdle.handsOut {env : Env} {s : Scheduler} {event : Event}
    (hidle : env.KeepsMarksIdle s event) : HandsOutFiledSteps env s event := by
  obtain ⟨moment, request⟩ := event
  cases request with
  | getWork args => exact hidle.2.1
  | _ => exact trivial

/-- The state once the request has pruned, and what has left it. -/
theorem pruned_spares {s : Scheduler} {event : Event} (hsound : s.Sound)
    (habandoned : s.Abandoned) (hidle : env.KeepsMarksIdle s event) :
    (env.pruned s event).Sound ∧ (env.pruned s event).Abandoned ∧
      ∀ ref, s.Filed ref → ¬(env.pruned s event).Filed ref →
        (((s.pruneWorkers env.config event.moment.now).stepAt ref).stakeholders = ∅ ∧
          ¬(s.pruneWorkers env.config event.moment.now).Needed ref) ∨
        ((env.pruned s event).stepAt ref).ofFailedBatch = true := by
  unfold pruned
  split
  · rename_i hprunes
    obtain ⟨t, hrun, hpruned⟩ :=
      prune_spec hsound.stored hsound.retriable env.config event.moment.now
    have hafter : env.after s ⟨event.moment, .prune⟩ = t :=
      congrArg Prod.snd (exec_reply (fun _ => Response.nothing) hrun)
    rw [hafter]
    exact ⟨hsound.prunes hpruned, habandoned.pruned hsound hrun hpruned (hidle.1 hprunes),
      fun ref => habandoned.spares hsound hrun hpruned (hidle.1 hprunes)⟩
  · exact ⟨hsound, habandoned, fun ref hfiled hgone => absurd hfiled hgone⟩

/-- `get_work` after its `prune`. -/
theorem received_rests {s : Scheduler} (hsound : s.Sound) (moment : Moment)
    (args : GetWorkArgs) :
    Greets (env.pruned s ⟨moment, .getWork args⟩) (env.received s moment args) := by
  unfold pruned
  split
  · rename_i hprunes
    obtain ⟨pruned, hrun, hreceived⟩ :=
      received_pruned hsound.stored hsound.retriable env moment args hprunes
    have hafter : env.after s ⟨moment, .prune⟩ = pruned :=
      congrArg Prod.snd (exec_reply (fun _ => Response.nothing) hrun)
    rw [hafter, hreceived]
    exact greets_updateWorker ..
  · rename_i hprunes
    rw [received_unpruned s env moment args (Bool.not_eq_true _ ▸ hprunes)]
    exact greets_updateWorker ..

theorem getWork_abandoned {s : Scheduler} {moment : Moment} {args : GetWorkArgs}
    (hsound : s.Sound) (habandoned : s.Abandoned)
    (hidle : env.KeepsMarksIdle s ⟨moment, .getWork args⟩) :
    (env.after s ⟨moment, .getWork args⟩).Abandoned ∧
      Clings (env.pruned s ⟨moment, .getWork args⟩)
        (env.after s ⟨moment, .getWork args⟩) := by
  obtain ⟨-, hpruned, -⟩ := env.pruned_spares hsound habandoned hidle
  obtain ⟨-, hlooks, hpicks⟩ := hidle
  have hgreeted := env.received_rests hsound moment args
  have hreceived : (env.received s moment args).Abandoned := hpruned.rests hgreeted.rests
  by_cases henabled : ((env.received s moment args).workerAt args.worker).enabled = true
  · obtain ⟨-, hprepares, hsame⟩ :=
      ranked_noted env moment args hsound.stored hsound.retriable
    have hranked : (env.ranked s moment args).Abandoned := by
      refine hreceived.imp fun ref hfiled hcondemned => ?_
      rw [hprepares.condemned] at hcondemned
      refine ⟨(hprepares.filed ref).mp hfiled, hcondemned, ?_, fun hrunning => ?_⟩
      · rw [hprepares.object]
        split
        · exact (congrArg Step.stakeholders (Step.withStatus_plan ..) :)
        · rfl
      · rw [hprepares.object] at hrunning ⊢
        split_ifs at hrunning ⊢
        · rw [Step.withStatus_status] at hrunning
          cases hrunning
        · exact ⟨hrunning, rfl⟩
    have hclings := hgreeted.clings.trans hprepares.clings
    obtain ⟨-, hgreets, -⟩ :=
      countPending_meets moment args.worker (env.ranked s moment args)
    rcases hsound.after_getWork_counts env moment hlooks henabled with
      ⟨error, hcount, -⟩ | ⟨pending, counted, work, hcount, -, hhands, -⟩
    · simp only [Program.final, hcount] at hgreets
      exact ⟨hranked.rests (Greets.rests hgreets), hclings.trans (Greets.clings hgreets)⟩
    · simp only [Program.final, hcount] at hgreets
      replace hgreets : Greets (env.ranked s moment args) counted := hgreets
      refine ⟨(hranked.rests hgreets.rests).handsOut hhands fun ref href => ?_,
        (hclings.trans hgreets.clings).trans hhands.clings⟩
      rw [hgreets.stepAt]
      exact hpicks henabled ref href
  · rw [(hsound.after_getWork_disabled env moment henabled).1]
    exact ⟨hreceived, hgreeted.clings⟩

/-- What holds of every state as long as marked steps stay abandoned. -/
def Sparing (s : Scheduler) : Prop := s.Sound ∧ s.Abandoned

/-- Apart from what it prunes, a request loses no step and no stake. -/
theorem after_spares {s : Scheduler} {event : Event} (hsound : s.Sound)
    (habandoned : s.Abandoned) (hidle : env.KeepsMarksIdle s event)
    (hload : event.request ≠ .load) :
    (env.after s event).Abandoned ∧ Clings (env.pruned s event) (env.after s event) := by
  obtain ⟨moment, request⟩ := event
  have hhands := hidle.handsOut
  by_cases hquiet : request.isQuiet = true
  · have hrests : Rests s (env.after s ⟨moment, request⟩) := rests_after env moment hquiet
    have hpruned : env.pruned s ⟨moment, request⟩ = s := by
      cases request <;> first | rfl | cases hquiet
    rw [hpruned]
    exact ⟨habandoned.rests hrests, clings_of_same hrests.getStep hrests.stakeholders⟩
  cases request with
  | addStep args =>
      obtain ⟨outcome, hadds, -⟩ := hsound.after_addStep env moment args
      exact ⟨habandoned.adds hsound.stored (fun ref hget => hidle.2 ref hget) hadds,
        hadds.clings hsound.stored⟩
  | getWork args => exact env.getWork_abandoned hsound habandoned hidle
  | prune =>
      obtain ⟨-, hpruned, -⟩ := env.pruned_spares hsound habandoned hidle
      exact ⟨hpruned, .refl _⟩
  | load => exact absurd rfl hload
  | markAsDone | forgiveFailures | reEnableStep | disableWorker | dump =>
      have hhandles := hsound.handles hhands
      exact ⟨habandoned.handles hsound.index hhandles rfl nofun,
        hhandles.clings hsound.index rfl nofun⟩
  | countPending | ping | addWorker | addStepBatcher | decreaseRunningStepResources
  | setStepStatusMessage | setStepProgressPercentage | updateResources | updateResource
  | pause | unpause => exact absurd rfl hquiet

/-- One request that keeps marked steps abandoned. -/
theorem sparing_after {s : Scheduler} {event : Event} (hlasting : Lasting Sparing s)
    (hidle : env.KeepsMarksIdle s event) : Lasting Sparing (env.after s event) := by
  have hhands := hidle.handsOut
  have hsounds : Lasting Sound s := ⟨hlasting.1.1, fun saved h => by
    obtain ⟨u, hu, rfl⟩ := hlasting.2 saved h
    exact ⟨u, hu.1, rfl⟩⟩
  refine lasting_after (fun {u v} hsparing hindex hcontents => ?_) (fun h => h.1) hlasting
    hhands fun hload hdump => ?_
  · have hsame : ∀ ref, v.stepAt ref = u.stepAt ref := fun ref => by
      simp only [Scheduler.stepAt, hcontents.heap]
    exact ⟨hsparing.1.reindex hindex hcontents.heap hcontents.nextRef hcontents.steps
      hcontents.activeWorkers, hsparing.2.continues hcontents.continues fun ref h => hsame ref ▸ h⟩
  · obtain ⟨hsound, habandoned⟩ := hlasting.1
    exact ⟨(Sound.after hsounds hhands).1.1, (env.after_spares hsound habandoned hidle hload).1⟩

/-- The scheduler is not restarted and the worker is not found silent. -/
def StaysActive (worker : WorkerId) (s : Scheduler) (event : Event) : Prop :=
  event.request ≠ .load ∧
    (env.prunes event = true → worker ∉ s.silentWorkers env.config event.moment.now)

/-- The prune of the request takes the step away after its batch has failed. -/
def DropsFailedBatch (s : Scheduler) (event : Event) (ref : Ref) : Prop :=
  env.prunes event = true ∧ ((env.pruned s event).stepAt ref).ofFailedBatch = true

instance (s : Scheduler) (event : Event) (ref : Ref) :
    Decidable (env.DropsFailedBatch s event ref) := by
  unfold DropsFailedBatch; infer_instance

/-- The prune of a request spares the steps of the workers that stay active. -/
theorem pruned_stakes {s : Scheduler} {event : Event} {worker : WorkerId} {id : StepId} {ref : Ref}
    (hsound : s.Sound) (habandoned : s.Abandoned) (hidle : env.KeepsMarksIdle s event)
    (hactive : env.StaysActive worker s event) (hstakes : s.Stakes worker id ref) :
    (env.pruned s event).Stakes worker id ref ∨ env.DropsFailedBatch s event ref := by
  obtain ⟨-, -, hspares⟩ := env.pruned_spares hsound habandoned hidle
  obtain ⟨hget, hstake⟩ := hstakes
  have hfiled := hsound.index.filed hget
  have hid := hsound.index.step_id hget
  unfold DropsFailedBatch
  by_cases hprunes : env.prunes event = true
  · obtain ⟨hprunesTo, -⟩ := hsound.after_prune env event.moment
    have hpruned : env.pruned s event = env.after s ⟨event.moment, .prune⟩ := if_pos hprunes
    have hkept := (hprunesTo.inactivates.mem_stakeholders hsound.index hfiled).mpr
      ⟨hactive.2 hprunes, hstake⟩
    by_cases hleft : (env.pruned s event).Filed ref
    · rw [hpruned] at hleft ⊢
      refine .inl ⟨?_, (hprunesTo.object ref).stakeholders ▸ hkept⟩
      unfold Filed at hleft
      rwa [hprunesTo.id, hid] at hleft
    · rcases hspares ref hfiled hleft with ⟨hempty, -⟩ | hfailed
      · rw [hempty] at hkept
        exact absurd hkept (Finset.notMem_empty worker)
      · exact .inr ⟨hprunes, hfailed⟩
  · have hpruned : env.pruned s event = s := if_neg hprunes
    rw [hpruned]
    exact .inl ⟨hget, hstake⟩

/-- A stake outlasts every run in which the worker stays active. -/
theorem stakes_along {worker : WorkerId} {id : StepId} {ref : Ref} {later : List Event}
    {s : Scheduler} (hlasting : Lasting Sparing s)
    (hidle : Along env.after env.KeepsMarksIdle s later)
    (hactive : Along env.after (env.StaysActive worker) s later)
    (hstakes : s.Stakes worker id ref) :
    (env.run s later).Stakes worker id ref ∨ ∃ first event rest,
      later = first ++ event :: rest ∧ env.DropsFailedBatch (env.run s first) event ref := by
  induction later generalizing s with
  | nil => exact .inl hstakes
  | cons event rest ih =>
      obtain ⟨hfirst, hrest⟩ := hidle
      obtain ⟨hstays, hactive⟩ := hactive
      obtain ⟨hsound, habandoned⟩ := hlasting.1
      rcases env.pruned_stakes hsound habandoned hfirst hstays hstakes with hkept | hfailed
      · obtain ⟨-, hclings⟩ := env.after_spares hsound habandoned hfirst hstays.1
        rcases ih (env.sparing_after hlasting hfirst) hrest hactive (hclings.stakes hkept) with
          hend | ⟨first, last, others, rfl, hfailed⟩
        · exact .inl hend
        · exact .inr ⟨event :: first, last, others, rfl, hfailed⟩
      · exact .inr ⟨[], event, rest, rfl, hfailed⟩

/-- Along the run `prune` drops no step that somebody still needs. -/
structure DropsNothingNeeded (resources : Resources) (events : List Event) : Prop where
  drops : ∀ front event back, events = front ++ event :: back →
    ∀ ref ∈ (env.run (.initial resources) front).activeSteps,
      ref ∉ (env.pruned (env.run (.initial resources) front) event).activeSteps →
        ¬((env.run (.initial resources) front).pruneWorkers env.config
            event.moment.now).Needed ref ∨
          env.DropsFailedBatch (env.run (.initial resources) front) event ref
  dependencies : ∀ front moment args later back ref,
    events = front ++ ⟨moment, .addStep args⟩ :: (later ++ back) →
    (env.run (.initial resources) front).HoldsDependencies env.config moment args ref →
    Along env.after (env.StaysActive args.worker)
      (env.run (.initial resources) (front ++ [⟨moment, .addStep args⟩])) later →
    ∀ dep ∈ ((env.run (.initial resources) (front ++ [⟨moment, .addStep args⟩])).stepAt ref).deps,
      ∃ target,
        (env.run (.initial resources) (front ++ ⟨moment, .addStep args⟩ :: later)).Stakes
            args.worker dep target ∨
          ∃ first event rest, later = first ++ event :: rest ∧
            env.DropsFailedBatch
              (env.run (.initial resources) (front ++ ⟨moment, .addStep args⟩ :: first)) event
              target

/-- In every run whose requests keep marked steps abandoned. -/
theorem dropsNothingNeeded_along {resources : Resources} {events : List Event}
    (hidle : Along env.after env.KeepsMarksIdle (.initial resources) events) :
    env.DropsNothingNeeded resources events := by
  have hinitial : Lasting Sparing (Scheduler.initial resources) := by
    refine ⟨⟨(initial_sound resources).1, fun ref hfiled => ?_⟩, fun saved hsaved => ?_⟩
    · unfold Filed at hfiled
      cases hfiled
    · cases hsaved
  have hreached : ∀ {front : List Event},
      Along env.after env.KeepsMarksIdle (.initial resources) front →
        Lasting Sparing (env.run (.initial resources) front) := fun hfront =>
    runAll_invariant env.after env.KeepsMarksIdle (Lasting Sparing)
      (fun _ _ => env.sparing_after) hinitial hfront
  constructor
  · rintro front event back rfl ref href hgone
    obtain ⟨hfront, hevent, -⟩ := (along_append front (event :: back)).mp hidle
    obtain ⟨hsound, habandoned⟩ := (hreached hfront).1
    obtain ⟨hprunedSound, -, hspares⟩ := env.pruned_spares hsound habandoned hevent
    have hfiled := hsound.index.mem_activeSteps.mp href
    have hleft := fun h => hgone (hprunedSound.index.mem_activeSteps.mpr h)
    refine (hspares ref hfiled hleft).imp And.right fun hfailed => ⟨?_, hfailed⟩
    by_contra hprunes
    refine hleft ?_
    unfold pruned
    rw [if_neg hprunes]
    exact hfiled
  · rintro front moment args later back ref rfl hholds hactive dep hdep
    obtain ⟨hfront, hadd, hrest⟩ := (along_append front (_ :: (later ++ back))).mp hidle
    obtain ⟨hlater, -⟩ := (along_append later back).mp hrest
    have hbefore := hreached hfront
    have hrun : ∀ events, env.run (.initial resources)
        (front ++ ⟨moment, .addStep args⟩ :: events) =
          env.run (env.after (env.run (.initial resources) front) ⟨moment, .addStep args⟩)
            events := fun events => runAll_append ..
    rw [hrun] at hactive hdep
    obtain ⟨outcome, hadds, -⟩ := hbefore.1.1.after_addStep env moment args
    obtain ⟨target, hstakes⟩ := stakes_of_holds hbefore.1.1 hholds hadds dep hdep
    refine ⟨target, ?_⟩
    simp only [hrun]
    exact env.stakes_along (env.sparing_after hbefore hadd) hlater hactive hstakes

end Env

/-- A step that lost its worker and is marked, when another worker schedules a step that
depends on it. -/
def markedDependency : List Event :=
  [ requestAt 1 (schedules firstWorker "b"),
    requestAt 100 .prune,
    requestAt 650 (.addStep { worker := secondWorker, stepId := "a", deps := some ["b"] }) ]

/-- The worker is active, but its dependency goes. -/
theorem marked_dependency_is_dropped :
    Timely (markedDependency ++ [requestAt 700 .prune]) ∧
      ¬defaultEnv.DropsNothingNeeded ∅ (markedDependency ++ [requestAt 700 .prune]) := by
  refine ⟨by decide +kernel, fun h => ?_⟩
  have hdrops := h.drops markedDependency (requestAt 700 .prune) [] rfl 0 (by decide +kernel)
    (by decide +kernel)
  revert hdrops
  decide +kernel

/-- The dependency is scheduled again before the step that needs it. -/
def renewedDependency : List Event :=
  [ requestAt 1 (schedules firstWorker "b"),
    requestAt 100 .prune,
    requestAt 649 (schedules secondWorker "b"),
    requestAt 650 (.addStep { worker := secondWorker, stepId := "a", deps := some ["b"] }),
    requestAt 700 .prune ]

theorem renewed_dependency_stays : defaultEnv.DropsNothingNeeded ∅ renewedDependency :=
  defaultEnv.dropsNothingNeeded_along (by decide +kernel)

end Trun
