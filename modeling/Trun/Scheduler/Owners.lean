import Trun.Scheduler.Ownership

/-!
# The recorded owner

`worker_running` is written only where it is empty, and a run that ends with `DONE`
or `FAILED` leaves it behind.  Where no claim meets such a leftover, the worker that
starts a run is the one recorded, as long as the run lasts.
-/

namespace Trun

open Program

namespace Scheduler

variable {s t : Scheduler} {env : Env} {moment : Moment} {ref : Ref}

/-! ## Runs that start -/

theorem Prunes.running (hprunes : Prunes env.config moment.now s t)
    (hrunning : (t.stepAt ref).status.isRunning = true) :
    (s.stepAt ref).SameRun (t.stepAt ref) := by
  have hpruned : (s.stepAt ref).SameRun ((s.pruneWorkers env.config moment.now).stepAt ref) := by
    obtain ⟨step, hstep⟩ := hprunes.inactivates.plan ref
    rw [hstep]
    exact ⟨rfl, rfl, rfl⟩
  exact hpruned.trans ((hprunes.object ref).running hrunning)

/-- `prune` does not put a step back that ran when it was called. -/
theorem Prunes.not_pending (hprunes : Prunes env.config moment.now s t)
    (hrunning : (s.stepAt ref).status.isRunning = true) : (t.stepAt ref).status ≠ .pending := by
  refine (hprunes.object ref).not_pending ?_
  obtain ⟨step, hstep⟩ := hprunes.inactivates.plan ref
  rw [hstep]
  exact hrunning

theorem Receives.running (hreceives : Receives env moment s t) (ref : Ref)
    (hrunning : (t.stepAt ref).status.isRunning = true) :
    (s.stepAt ref).SameRun (t.stepAt ref) := by
  cases hprune : env.config.pruneOnGetWork with
  | true =>
      obtain ⟨u, hprunes, hgreets⟩ := hreceives.prunes hprune
      rw [hgreets.stepAt] at hrunning ⊢
      exact hprunes.running hrunning
  | false =>
      rw [(hreceives.greets hprune).stepAt]
      exact .refl _

theorem Receives.not_pending (hreceives : Receives env moment s t)
    (hrunning : (s.stepAt ref).status.isRunning = true) : (t.stepAt ref).status ≠ .pending := by
  cases hprune : env.config.pruneOnGetWork with
  | true =>
      obtain ⟨u, hprunes, hgreets⟩ := hreceives.prunes hprune
      rw [hgreets.stepAt]
      exact hprunes.not_pending hrunning
  | false =>
      rw [(hreceives.greets hprune).stepAt]
      intro h
      rw [h] at hrunning
      cases hrunning

theorem Prepares.running {now : Time} {args : GetWorkArgs} (hprepares : Prepares now args s t)
    (ref : Ref) (hrunning : (t.stepAt ref).status.isRunning = true) : t.stepAt ref = s.stepAt ref :=
      by
  rw [hprepares.object] at hrunning ⊢
  split
  · rename_i horphaned
    rw [if_pos horphaned, Step.withStatus_status] at hrunning
    cases hrunning
  · rfl

/-- What a step looks like that is `RUNNING` after a hand-out. -/
theorem HandsOut.running {worker : WorkerId} {selection : Selection} {work : Work}
    (hhands : HandsOut env moment.now worker selection s work t)
    (hrunning : (t.stepAt ref).status = .running) :
    ((t.stepAt ref).workerRunning = some worker ∧ ref ∈ selection.picks) ∨
      t.stepAt ref = s.stepAt ref := by
  cases hhands with
  | nothing => exact .inr rfl
  | @single best _ hbest hsize hands =>
      by_cases href : ref = best
      · subst href
        rw [hands.object, if_pos (List.mem_singleton_self _)]
        refine .inl ⟨rfl, ?_⟩
        rw [Selection.picks, if_neg hsize, hbest]
        exact List.mem_singleton_self _
      · rw [hands.object, if_neg (by simpa using href)]
        exact .inr rfl
  | batch _ _ hands =>
      rw [hands.object] at hrunning ⊢
      split
      · rename_i hmem
        rw [if_pos hmem, Step.reserved_status] at hrunning
        cases hrunning
      · exact .inr rfl

/-- A step that runs after `get_work` ran before or was handed to its worker. -/
theorem GetsWork.running {args : GetWorkArgs} {outcome : Except Raised Reply}
    (hworks : GetsWork env moment args s outcome t)
    (hrunning : (t.stepAt ref).status = .running) :
    ((t.stepAt ref).workerRunning = some args.worker ∧
        ((env.received s moment args).workerAt args.worker).enabled = true ∧
        ref ∈ ((env.ranked s moment args).selectWork args env.config moment.now
          ((env.received s moment args).lostStep args)).picks) ∨
      (s.stepAt ref).SameRun (t.stepAt ref) := by
  have hkept : ∀ {u}, Receives env moment s (env.received s moment args) →
      Prepares moment.now args (env.received s moment args) (env.ranked s moment args) →
      Greets (env.ranked s moment args) u → (u.stepAt ref).status = .running →
      (s.stepAt ref).SameRun (u.stepAt ref) := by
    intro u hreceives hprepares hgreets hu
    rw [hgreets.stepAt] at hu ⊢
    have hsame := hprepares.running ref (by rw [hu]; rfl)
    rw [hsame] at hu ⊢
    exact hreceives.running _ (by rw [hu]; rfl)
  cases hworks with
  | refused hreceives => exact .inr (hreceives.running _ (by rw [hrunning]; rfl))
  | failed hreceives _ hprepares hgreets _ =>
      exact .inr (hkept hreceives hprepares hgreets hrunning)
  | served hreceives henabled hprepares hgreets hhands =>
      rcases hhands.running hrunning with ⟨howner, hpick⟩ | hsame
      · exact .inl ⟨howner, henabled, hpick⟩
      · rw [hsame] at hrunning ⊢
        exact .inr (hkept hreceives hprepares hgreets hrunning)

/-! ## Runs that go on -/

/-- A run that lasts through `get_work` keeps its owner. -/
theorem Sound.owner_getWork {args : GetWorkArgs} {outcome : Except Raised Reply} {owner : WorkerId}
    (hsound : s.Sound) (hlooks : env.LooksAtFiledSteps s moment args)
    (hworks : GetsWork env moment args s outcome t)
    (hbefore : (s.stepAt ref).status = .running)
    (howner : (s.stepAt ref).workerRunning = some owner)
    (hafter : (t.stepAt ref).status = .running) : (t.stepAt ref).workerRunning = some owner := by
  rcases hworks.running hafter with ⟨hhanded, henabled, hpick⟩ | hsame
  swap
  · exact hsame.workerRunning.trans howner
  rw [hhanded]
  obtain ⟨-, hreceives, hstored, -⟩ :=
    receiveRequest_spec env moment args hsound.stored hsound.retriable
  obtain ⟨-, hprepares⟩ := prepares_ranked env moment args hsound.stored hsound.retriable
  obtain ⟨-, hpending | ⟨-, hrunning, hown⟩⟩ :=
    picks_filed _ _ _ _ hsound.stored hsound.retriable henabled hlooks hpick
  · -- `prune` does not put the running step back, and it is no member of a batch
    rw [hprepares.object] at hpending
    split at hpending
    · rename_i horphaned
      have hbatch := (hstored.index.mem_orphanedSteps.mp horphaned.2).2.1
      have hsame := hreceives.running ref (by rw [hbatch]; rfl)
      rw [hsame.status, hbefore] at hbatch
      cases hbatch
    · exact absurd hpending (hreceives.not_pending (by rw [hbefore]; rfl))
  · have hsame := hprepares.running ref (by rw [hrunning]; rfl)
    rw [hsame] at hrunning hown
    have hrun := hreceives.running ref (by rw [hrunning]; rfl)
    rw [← hown, hrun.workerRunning, howner]

/-! ## Requests that report -/

section Accepts

variable {config : Config} {args : AddStepArgs} {enabled : Bool} {other : Ref}

theorem Accepts.target_owner (haccepts : Accepts config moment args ref enabled s t) :
    (t.stepAt ref).workerRunning = (s.openedStep moment args ref).workerRunning := by
  have htarget := (congrArg Step.workerRunning haccepts.target :)
  refine htarget.trans ?_
  unfold Step.report
  split
  · exact Step.settle_workerRunning ..
  · rfl

theorem Accepts.target_status (haccepts : Accepts config moment args ref enabled s t) :
    (t.stepAt ref).status = ((s.openedStep moment args ref).report config moment args).status :=
  (congrArg Step.status haccepts.target :)

/-- Of the other steps only the members of a batch that ends change their status. -/
theorem Accepts.other_running (haccepts : Accepts config moment args ref enabled s t)
    (hlt : other < s.nextRef) (hne : other ≠ ref)
    (hrunning : (t.stepAt other).status = .running) : (s.stepAt other).SameRun (t.stepAt other) :=
      by
  have hcore := haccepts.other other hlt hne
  split at hcore
  · rename_i hpasses
    obtain ⟨hpasses, -, hbatch, -⟩ := hpasses
    have hstatus := (congrArg Step.status hcore :)
    have hsettled : ((s.stepAt other).settle (some config) moment.now args.newStatus).status =
        .running := hstatus.symm.trans hrunning
    have hnew : args.newStatus ≠ .running := by
      intro h
      simp only [Step.passesOn, Step.releasesBatch, h, bne_self_eq_false, Bool.and_false,
        Bool.false_eq_true] at hpasses
    by_cases hignores : (s.stepAt other).ignores args.newStatus = true
    · rw [Step.settle_of_ignores _ _ _ _ hignores, hbatch] at hsettled
      cases hsettled
    · rcases Step.settle_status_cases (s.stepAt other) (some config) moment.now args.newStatus
        (Bool.not_eq_true _ ▸ hignores) with h | ⟨-, h⟩
      · exact absurd (h.symm.trans hsettled) hnew
      · rw [h] at hsettled
        cases hsettled
  · exact ⟨(congrArg Step.status hcore :), (congrArg Step.workerRunning hcore :),
      (congrArg Step.batchId hcore :)⟩

end Accepts

end Scheduler

/-- A claim that starts a run for which someone else is recorded. -/
def Step.FindsOtherOwner (step : Step) (config : Config) (moment : Moment)
    (args : AddStepArgs) (enabled : Bool) : Prop :=
  step.status ≠ .running ∧ step.dropsClaim config moment args enabled = false ∧
    step.acceptsReport args = true ∧ step.ignores .running = false ∧
    step.workerRunning ≠ none ∧ step.workerRunning ≠ some args.worker

instance (step : Step) (config : Config) (moment : Moment) (args : AddStepArgs)
    (enabled : Bool) : Decidable (step.FindsOtherOwner config moment args enabled) := by
  unfold Step.FindsOtherOwner; infer_instance

namespace Env

/-- A claim of a run finds no other worker recorded. -/
def ClaimsOwnRun (env : Env) (s : Scheduler) (event : Event) : Prop :=
  match event.request with
  | .addStep args => args.status = .running → ∀ ref ∈ s.getStep args.stepId,
      ¬(s.stepAt ref).FindsOtherOwner env.config event.moment args
        (s.workerAt args.worker).enabled
  | _ => True

instance (env : Env) (s : Scheduler) (event : Event) : Decidable (env.ClaimsOwnRun s event) := by
  obtain ⟨moment, request⟩ := event
  induction request using Request.casesOn <;> dsimp only [ClaimsOwnRun] <;> infer_instance

end Env

namespace Scheduler

variable {s t : Scheduler} {env : Env} {moment : Moment} {ref : Ref} {args : AddStepArgs}

/-- A claim that fails has written only the owner and the batch of the step. -/
theorem stepAt_failedClaim (s : Scheduler) (args : AddStepArgs) (ref other : Ref) :
    let t := (s.joinStep args ref).updateStep ref fun step =>
      { step with workerRunning := some args.worker }
    (t.stepAt other).id = (s.stepAt other).id ∧
      (t.stepAt other).status = (s.stepAt other).status ∧
      (t.stepAt other).stakeholders = (s.stepAt other).stakeholders ∧
      (t.stepAt other).remove = (s.stepAt other).remove ∧
      (t.stepAt other).batchId =
        (if other = ref then args.batchId <|> (s.stepAt ref).batchId
          else (s.stepAt other).batchId) ∧
      (t.stepAt other).workerRunning =
        if other = ref then some args.worker else (s.stepAt other).workerRunning := by
  dsimp only
  by_cases hother : other = ref
  · subst hother
    rw [if_pos rfl, if_pos rfl, stepAt_updateStep, if_pos rfl, joinStep, stepAt_updateStep,
      if_pos rfl]
    exact ⟨rfl, rfl, rfl, rfl, rfl, rfl⟩
  · simp only [stepAt_updateStep, joinStep, if_neg hother, and_self]

/-- A run that a claim starts belongs to the worker that claims it. -/
theorem Sound.acquired_addStep {outcome : Except Raised Unit} (hsound : s.Sound)
    (hclaims : env.ClaimsOwnRun s ⟨moment, .addStep args⟩)
    (hadds : AddsStep env.config moment args (s.receiveStep env.config moment args) outcome t)
    (hstatus : args.status = .running) (hfiled : t.Filed ref)
    (hbefore : (s.stepAt ref).status ≠ .running) (hafter : (t.stepAt ref).status = .running) :
    (t.stepAt ref).workerRunning = some args.worker := by
  have hreceipt := hsound.stored.receipt env.config moment args
  generalize s.receiveStep env.config moment args = received at hadds hreceipt
  have hreceived : ∀ other, received.Filed other → (s.stepAt other).status ≠ .running →
      (received.stepAt other).status ≠ .running := by
    intro other hother hold
    rcases hreceipt.filed hsound.stored hother with h | ⟨-, hstep⟩
    · rwa [hreceipt.stepAt other (hsound.stored.filed_lt h)]
    · rw [hstep]
      exact fun h => by cases h
  cases hadds with
  | dropped => exact absurd hafter (hreceived ref hfiled hbefore)
  | @failed target =>
      obtain ⟨hid, hsame, -⟩ := received.stepAt_failedClaim args target ref
      have hold : received.Filed ref := by
        unfold Filed at hfiled ⊢
        rwa [hid] at hfiled
      rw [hsame] at hafter
      exact absurd hafter (hreceived ref hold hbefore)
  | @accepted target _ hget hclaim _ haccepts =>
      rcases haccepts.filed hreceipt.stored hfiled with hold | ⟨-, id, hcore⟩
      swap
      · have hunknown : (t.stepAt ref).status = .unknown := (congrArg Step.status hcore :)
        rw [hunknown] at hafter
        cases hafter
      by_cases href : ref = target
      swap
      · have hsame := haccepts.other_running (hreceipt.stored.filed_lt hold) href hafter
        exact absurd (hsame.status.symm.trans hafter) (hreceived ref hold hbefore)
      subst href
      rw [haccepts.target_owner, openedStep_workerRunning]
      cases howner : (received.stepAt ref).workerRunning with
      | none => rw [if_pos ⟨hstatus, rfl⟩]
      | some owner =>
          rw [if_neg fun h => by cases h.2]
          have hknown : s.Filed ref := by
            refine (hreceipt.filed hsound.stored hold).resolve_right fun h => ?_
            rw [h.2] at howner
            cases howner
          have hstep := hreceipt.stepAt ref (hsound.stored.filed_lt hknown)
          rw [hstep] at howner hclaim
          rw [hreceipt.enabled] at hclaim
          have hrow : s.getStep args.stepId = some ref := by
            rw [← hreceipt.stored.index.step_id hget, hstep]
            exact hknown
          have hreport := haccepts.target_status
          rw [hafter] at hreport
          have hold : (received.openedStep moment args ref).status ≠ .running := by
            rw [(openedStep_plan_fields received moment args ref).2.2.1, hstep]
            exact hbefore
          by_contra hother
          refine hclaims hstatus ref hrow ⟨hbefore, hclaim, ?_, ?_, ?_, ?_⟩
          · by_contra hrefused
            rw [← hstep, ← openedStep_acceptsReport moment _ (hstep ▸ howner)]
              at hrefused
            rw [Step.report, if_neg hrefused] at hreport
            exact hold hreport.symm
          · by_contra hignored
            rw [← hstep, ← openedStep_ignores received moment args, Bool.not_eq_false] at hignored
            have hnew : args.newStatus = .running := newStatus_running.mpr hstatus
            rw [Step.report] at hreport
            split at hreport
            · rw [hnew, Step.settle_of_ignores _ _ _ _ hignored] at hreport
              exact hold hreport.symm
            · exact hold hreport.symm
          · rw [howner]
            exact fun h => by cases h
          · rw [howner]
            exact hother

/-- A run that lasts through `add_step` keeps its owner. -/
theorem Sound.owner_addStep {outcome : Except Raised Unit} {owner : WorkerId} (hsound : s.Sound)
    (hadds : AddsStep env.config moment args (s.receiveStep env.config moment args) outcome t)
    (hfiled : s.Filed ref) (howner : (s.stepAt ref).workerRunning = some owner)
    (hafter : (t.stepAt ref).status = .running) : (t.stepAt ref).workerRunning = some owner := by
  have hreceipt := hsound.stored.receipt env.config moment args
  generalize s.receiveStep env.config moment args = received at hadds hreceipt
  have hlt := hsound.stored.filed_lt hfiled
  have hreceived : (received.stepAt ref).workerRunning = some owner := by
    rw [hreceipt.stepAt ref hlt, howner]
  cases hadds with
  | dropped => exact hreceived
  | @failed target _ _ _ hraises =>
      have hunclaimed : (received.stepAt target).workerRunning = none := by
        rw [← workerRunning_joinStep]
        exact hraises.1.2
      by_cases href : ref = target
      · rw [← href, hreceived] at hunclaimed
        cases hunclaimed
      · rw [stepAt_updateStep, if_neg href, workerRunning_joinStep]
        exact hreceived
  | @accepted target _ _ _ _ haccepts =>
      by_cases href : ref = target
      · subst href
        rw [haccepts.target_owner]
        exact openedStep_owner hreceived
      · have hsame := haccepts.other_running (hlt.trans_le hreceipt.nextRef_le) href hafter
        rw [hsame.workerRunning, hreceived]

/-- A run that lasts keeps its owner. -/
theorem Serves.owner {event : Event} {outcome : Except Raised Response} {owner : WorkerId}
    (hserves : Serves env s event outcome t) (hsound : s.Sound) (hfiled : s.Filed ref)
    (hbefore : (s.stepAt ref).status = .running)
    (howner : (s.stepAt ref).workerRunning = some owner)
    (hafter : (t.stepAt ref).status = .running) : (t.stepAt ref).workerRunning = some owner := by
  cases hserves with
  | adds hadds => exact hsound.owner_addStep hadds hfiled howner hafter
  | works hlooks hworks => exact hsound.owner_getWork hlooks hworks hbefore howner hafter
  | prunes hprunes =>
      rw [(hprunes.running (by rw [hafter]; rfl)).workerRunning]
      exact howner
  | rests _ hrests => rw [hrests.workerRunning, howner]

end Scheduler

open Scheduler

namespace Env

variable (env : Env)

/-- The worker whose request may start a run. -/
def starter (event : Event) : Option WorkerId :=
  match event.request with
  | .addStep args => if args.status = .running then some args.worker else none
  | .getWork args => some args.worker
  | _ => none

/-- The request of the worker moves the step into `RUNNING`. -/
def Acquires (s : Scheduler) (event : Event) (worker : WorkerId) (ref : Ref) : Prop :=
  starter event = some worker ∧ (env.after s event).Filed ref ∧
    (s.stepAt ref).status ≠ .running ∧ ((env.after s event).stepAt ref).status = .running

instance (s : Scheduler) (event : Event) (worker : WorkerId) (ref : Ref) :
    Decidable (env.Acquires s event worker ref) := by
  unfold Acquires; infer_instance

/-- A worker that starts a run is recorded as its owner. -/
def RecordsOwner (s : Scheduler) (event : Event) : Prop :=
  ∀ worker ref, env.Acquires s event worker ref →
    ((env.after s event).stepAt ref).workerRunning = some worker

/-- The step runs. -/
def GoesOn (ref : Ref) (s : Scheduler) : Prop := s.Filed ref ∧ (s.stepAt ref).status = .running

/-- The report of a result by the worker changes the status of the running step. -/
def BelievesReport (s : Scheduler) (worker : WorkerId) (ref : Ref) : Prop :=
  ∀ moment args, args.worker = worker → args.stepId = (s.stepAt ref).id →
    args.status = .done ∨ args.status = .failed →
      ((env.after s ⟨moment, .addStep args⟩).stepAt ref).status ≠ .running

/-- Whoever starts a run is recorded, and believed at its end. -/
def OwnersAreReal (s : Scheduler) (events : List Event) : Prop :=
  Along env.after env.RecordsOwner s events ∧
    ∀ front event middle, events = front ++ event :: middle →
      ∀ worker ref, env.Acquires (env.run s front) event worker ref →
        Along env.after (fun t _ => GoesOn ref t) (env.after (env.run s front) event) middle →
          GoesOn ref (env.run s events) → env.BelievesReport (env.run s events) worker ref

/-- Workers alone send requests, and no claim of a run meets a leftover owner. -/
def StartsOwnRuns (s : Scheduler) (event : Event) : Prop :=
  event.request.isWorkers = true ∧ HandsOutFiledSteps env s event ∧ env.ClaimsOwnRun s event

instance (s : Scheduler) (event : Event) : Decidable (env.StartsOwnRuns s event) := by
  unfold StartsOwnRuns; infer_instance

variable {env} {s : Scheduler}

theorem recordsOwner {event : Event} (hsound : s.Sound)
    (hstarts : env.StartsOwnRuns s event) : env.RecordsOwner s event := by
  intro worker ref hacquires
  obtain ⟨hworkers, hhands, hclaims⟩ := hstarts
  obtain ⟨hstarter, hfiled, hbefore, hafter⟩ := hacquires
  have hserves := hsound.serves hworkers hhands
  generalize env.outcome s event = outcome at hserves
  generalize env.after s event = t at hserves hfiled hafter ⊢
  cases hserves with
  | @adds moment args _ _ hadds =>
      simp only [starter] at hstarter
      split at hstarter
      · rename_i hstatus
        cases hstarter
        exact hsound.acquired_addStep hclaims hadds hstatus hfiled hbefore hafter
      · cases hstarter
  | works _ hworks =>
      cases hstarter
      rcases hworks.running hafter with ⟨howner, -⟩ | hsame
      · exact howner
      · exact absurd (hsame.status.symm.trans hafter) hbefore
  | prunes => cases hstarter
  | rests hquiet hrests => exact absurd ((hrests.status ref).symm.trans hafter) hbefore

/-- The owner of a running step is believed. -/
theorem believesReport (hsound : s.Sound) {worker : WorkerId} {ref : Ref}
    (hruns : GoesOn ref s) (howner : (s.stepAt ref).workerRunning = some worker) :
    env.BelievesReport s worker ref := by
  rintro moment args rfl hid hresult
  obtain ⟨hfiled, hrunning⟩ := hruns
  have hclaim : (s.stepAt ref).dropsClaim env.config moment args
      (s.workerAt args.worker).enabled = false := by
    rw [Step.dropsClaim, hrunning, Bool.or_eq_false_iff]
    exact ⟨rfl, by rw [Bool.and_assoc]; exact Bool.and_false _⟩
  have haccepts : (s.stepAt ref).acceptsReport args = true := by
    have hstarted : args.startedARun = true := by
      rcases hresult with h | h <;> simp only [AddStepArgs.startedARun, h]
    simp only [Step.acceptsReport, hstarted, howner, beq_self_eq_true, Bool.and_self,
      Bool.or_true, Bool.true_or]
  have hnew : args.newStatus = .done ∨ args.newStatus = .failed := by
    unfold AddStepArgs.newStatus
    rcases hresult with h | h <;> rw [h]
    · exact .inl rfl
    · exact .inr rfl
  have hignores : (s.stepAt ref).ignores args.newStatus = false := by
    simp only [Step.ignores, hrunning]
    rcases hnew with h | h <;> rw [h] <;> rfl
  rcases env.status_of_report moment hsound (hid ▸ hfiled) howner hclaim haccepts hignores with h |
    h <;> rw [h]
  · rcases hnew with h | h <;> rw [h] <;> decide
  · decide

/-- A run that lasts keeps its owner through any requests of workers. -/
theorem owner_run {events : List Event} {worker : WorkerId} {ref : Ref}
    (hlasting : Lasting Sound s) (hstarts : Along env.after env.StartsOwnRuns s events)
    (hgoes : Along env.after (fun t _ => GoesOn ref t) s events)
    (hlast : GoesOn ref (env.run s events))
    (howner : (s.stepAt ref).workerRunning = some worker) :
    ((env.run s events).stepAt ref).workerRunning = some worker := by
  induction events generalizing s with
  | nil => exact howner
  | cons event rest ih =>
      obtain ⟨⟨hworkers, hhands, hclaims⟩, hrest⟩ := hstarts
      obtain ⟨hafter, -⟩ := Sound.after hlasting hhands
      have hnext : GoesOn ref (env.after s event) := by
        cases rest with
        | nil => exact hlast
        | cons => exact hgoes.2.1
      refine ih hafter hrest hgoes.2 hlast ?_
      exact (hlasting.1.serves hworkers hhands).owner hlasting.1 hgoes.1.1 hgoes.1.2 howner
        hnext.2

/-- In every run of workers' requests in which no claim of a run meets a leftover
owner, whoever starts a run is recorded, and believed at its end. -/
theorem owners_are_real {resources : Resources} {events : List Event}
    (hstarts : Along env.after env.StartsOwnRuns (.initial resources) events) :
    env.OwnersAreReal (.initial resources) events := by
  have hkeep : ∀ s event, Lasting Sound s → env.StartsOwnRuns s event →
      Lasting Sound (env.after s event) := fun s event hlasting h =>
    (Sound.after hlasting h.2.1).1
  have halong := along_invariant env.after _ (Lasting Sound) hkeep (initial_sound resources) hstarts
  refine ⟨halong.mono fun s event h => recordsOwner h.1.1 h.2, ?_⟩
  rintro front event middle rfl worker ref hacquires hgoes hlast
  obtain ⟨hfront, hevent, hmiddle⟩ := (along_append front (event :: middle)).mp halong
  have hfirst := hevent.1.1
  have hnext := hkeep _ _ hevent.1 hevent.2
  have hrun : env.run (.initial resources) (front ++ event :: middle) =
      env.run (env.after (env.run (.initial resources) front) event) middle := by
    unfold run
    rw [runAll_append, runAll_cons]
  rw [hrun] at hlast ⊢
  have howner := owner_run hnext (hmiddle.mono fun _ _ h => h.2) hgoes hlast
    (recordsOwner hfirst hevent.2 worker ref hacquires)
  have hsound :=
    runAll_invariant env.after _ (Lasting Sound) hkeep hnext (hmiddle.mono fun _ _ h => h.2)
  exact believesReport hsound.1 hlast howner

end Env

/-- The first worker runs a step twice over; in between the second one claims it. -/
def leftoverRun : List Event :=
  [ requestAt 1 (.addStep { worker := firstWorker, stepId := "c", status := .running }),
    requestAt 2 (.addStep { worker := firstWorker, stepId := "c", status := .done }) ]

/-- The claim of the second worker. -/
def leftoverClaim : Event :=
  requestAt 20 (.addStep { worker := secondWorker, stepId := "c", status := .running })

/-- The step runs for the second worker, but the first one is recorded. -/
theorem leftover_owner_is_kept :
    Timely (leftoverRun ++ [leftoverClaim]) ∧
      ¬defaultEnv.OwnersAreReal (.initial ∅) (leftoverRun ++ [leftoverClaim]) := by
  refine ⟨by decide +kernel, fun h => ?_⟩
  have hrecords := ((along_append leftoverRun [leftoverClaim]).mp h.1).2.1 secondWorker 0
    (by decide +kernel)
  revert hrecords
  decide +kernel

theorem clean_run_owners_are_real :
    defaultEnv.OwnersAreReal (.initial ∅)
      [ requestAt 1 (schedules firstWorker "a"),
        requestAt 2 (schedules secondWorker "a"),
        requestAt 3 (.getWork { worker := firstWorker, currentSteps := some [] }),
        requestAt 4 (.addStep { worker := secondWorker, stepId := "a", status := .done }),
        requestAt 5 (.addStep { worker := secondWorker, stepId := "c", status := .running }) ] :=
  Env.owners_are_real (by decide +kernel)

end Trun
