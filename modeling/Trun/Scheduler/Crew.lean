import Trun.Scheduler.Singles

/-!
# One worker a run

A worker holds a step from the reply that hands it out until it reports the step.  Where
the workers keep to the order of calls of `worker.py`, what is held is exactly what runs
in the table under the worker's name, so that no two workers hold a step.
-/

namespace Trun

open Program Scheduler

/-! ## Workers and their requests -/

/-- A request, and whether its reply gets back. -/
structure Turn where
  event : Event
  answered : Bool := true

/-- The scheduler and the steps that its workers hold. -/
structure Crew where
  scheduler : Scheduler
  held : Finset (WorkerId × StepId) := ∅

namespace Crew

variable (env : Env) (assistants : WorkerId → Bool) (crew : Crew) (turn : Turn)

/-- What the workers hold after a request. -/
def holdings : Finset (WorkerId × StepId) :=
  match turn.event.request with
  | .addStep args => if args.endsRun then crew.held.erase (args.worker, args.stepId) else crew.held
  | .getWork args =>
      match handedStep (env.outcome crew.scheduler turn.event) with
      | some id => if turn.answered then insert (args.worker, id) crew.held else crew.held
      | none => crew.held
  | _ => crew.held

def after : Crew where
  scheduler := env.after crew.scheduler turn.event
  held := crew.holdings env turn

/-- No worker that holds a step has been silent for too long. -/
def HoldersAlive (now : Time) : Prop :=
  ∀ pair ∈ crew.held, (crew.scheduler.workerAt pair.1).prune env.config now = false

instance (now : Time) : Decidable (crew.HoldersAlive env now) := by
  unfold HoldersAlive; infer_instance

/-- The request schedules a step, or it is about a run of the worker itself. -/
def Reports (args : AddStepArgs) : Prop :=
  args.batchId = none ∧ args.status ≠ .batchRunning ∧
    (args.assistant = true → assistants args.worker = true) ∧
    (args.status = .running → (args.worker, args.stepId) ∈ crew.held) ∧
    (args.hasNewDeps = true → args.status = .pending ∧
      ∀ pair ∈ crew.held, pair.2 = args.stepId → pair.1 = args.worker)

/-- The worker, which batches no family, tells the steps that it holds. -/
def Asks (moment : Moment) (args : GetWorkArgs) : Prop :=
  args.assistant = assistants args.worker ∧
    crew.scheduler.stepBatchers.get? args.worker = none ∧
    (∀ pair ∈ crew.held, pair.1 = args.worker → ∀ ids ∈ args.currentSteps, pair.2 ∈ ids) ∧
    (env.config.pruneOnGetWork = true → crew.HoldersAlive env moment.now) ∧
    StartsUnmarked env crew.scheduler moment args

/-- What workers do that follow `worker.py`.  The scheduler may be restarted from a dump of
the state that it is in, as its shutdown handler leaves it. -/
def Follows : Prop :=
  match turn.event.request with
  | .addStep args => crew.Reports assistants args
  | .getWork args => crew.Asks env assistants turn.event.moment args
  | .prune => crew.HoldersAlive env turn.event.moment.now
  | .dump => True
  | .load => crew.scheduler.saved = some crew.scheduler.getState
  | request => request.isQuiet = true ∧ request.keepsAssistants = true

instance (args : AddStepArgs) : Decidable (crew.Reports assistants args) := by
  unfold Reports; infer_instance

instance (moment : Moment) (args : GetWorkArgs) :
    Decidable (crew.Asks env assistants moment args) := by
  unfold Asks; infer_instance

instance : Decidable (crew.Follows env assistants turn) := by
  obtain ⟨⟨moment, request⟩, answered⟩ := turn
  induction request using Request.casesOn <;> dsimp only [Follows] <;> infer_instance

end Crew

/-! ## Runs of the crew -/

namespace Crew

variable {env : Env} {assistants : WorkerId → Bool} {crew : Crew} {turn : Turn}
variable {worker : WorkerId} {id : StepId}

def Ends (request : Request) (worker : WorkerId) (id : StepId) : Prop :=
  match request with
  | .addStep args => args.endsRun = true ∧ args.stepId = id ∧ args.worker = worker
  | _ => False

def HandsTo (env : Env) (s : Scheduler) (event : Event) (worker : WorkerId) (id : StepId) : Prop :=
  match event.request with
  | .getWork args => handedStep (env.outcome s event) = some id ∧ args.worker = worker
  | _ => False

theorem mem_holdings : (worker, id) ∈ crew.holdings env turn ↔
    ((worker, id) ∈ crew.held ∧ ¬Ends turn.event.request worker id) ∨
      (turn.answered = true ∧ HandsTo env crew.scheduler turn.event worker id) := by
  unfold holdings Ends HandsTo
  cases turn.event.request with
  | addStep args =>
      dsimp only
      split
      · rename_i hends
        simp only [Finset.mem_erase, ne_eq, Prod.mk.injEq, hends, true_and, and_false, or_false]
        rw [and_comm]
        refine and_congr_right fun _ => not_congr ⟨fun h => ⟨h.2.symm, h.1.symm⟩, fun h => ?_⟩
        exact ⟨h.2.symm, h.1.symm⟩
      · rename_i hends
        simp only [hends, Bool.false_eq_true, false_and, not_false_eq_true, and_true, and_false,
          or_false]
  | getWork args =>
      dsimp only
      cases handedStep (env.outcome crew.scheduler turn.event) with
      | none => simp
      | some handed =>
          dsimp only
          split
          · rename_i hanswered
            simp only [Finset.mem_insert, Prod.mk.injEq, hanswered, not_false_eq_true, and_true,
              true_and, Option.some.injEq]
            constructor
            · rintro (⟨hworker, hid⟩ | h)
              · exact .inr ⟨hid.symm, hworker.symm⟩
              · exact .inl h
            · rintro (h | ⟨hid, hworker⟩)
              · exact .inr h
              · exact .inl ⟨hworker.symm, hid.symm⟩
          · rename_i hlost
            simp only [hlost, Bool.false_eq_true, false_and, or_false, not_false_eq_true, and_true]
  | _ => simp

/-- What is held runs under the name of the worker that holds it. -/
structure Orderly (assistants : WorkerId → Bool) (crew : Crew) : Prop where
  lasting : Lasting Env.Attending crew.scheduler
  single : crew.scheduler.Single
  staked : crew.scheduler.Staked assistants
  backed : ∀ {worker id}, (worker, id) ∈ crew.held → crew.scheduler.RunsFor id worker

theorem Orderly.ordered (horderly : crew.Orderly assistants) :
    crew.scheduler.Ordered assistants :=
  ⟨horderly.lasting.1.1, horderly.lasting.1.2, horderly.single, horderly.staked⟩

/-- What a worker says about its runs is so when the request has been received. -/
theorem Orderly.claimsOwn (horderly : crew.Orderly assistants) (env : Env) (moment : Moment)
    {args : AddStepArgs} (hreports : crew.Reports assistants args) :
    (crew.scheduler.receiveStep env.config moment args).ClaimsOwn args := by
  have hstored := horderly.ordered.sound.stored
  obtain ⟨hbatch, hstatus, -, hclaim, hnew⟩ := hreports
  refine ⟨hbatch, hstatus, fun h => ?_, fun h => (hnew h).1⟩
  exact (runsFor_received hstored (hstored.receipt env.config moment args)).mpr
    (horderly.backed (hclaim h))

/-- A claim that would raise is not made. -/
theorem not_claimRaises {s : Scheduler} {args : AddStepArgs} {ref : Ref}
    (hclaims : s.ClaimsOwn args) (hget : s.getStep args.stepId = some ref) :
    ¬s.claimRaises args ref := by
  rintro ⟨⟨hstatus, hnone⟩, -⟩
  obtain ⟨other, hget', -, howner⟩ := hclaims.2.2.1 hstatus
  obtain rfl : ref = other := Option.some.inj (hget.symm.trans hget')
  rw [workerRunning_joinStep, howner] at hnone
  cases hnone

theorem Orderly.attends (horderly : crew.Orderly assistants)
    (hfollows : crew.Follows env assistants turn) :
    env.AttendsRuns crew.scheduler turn.event := by
  obtain ⟨⟨moment, request⟩, answered⟩ := turn
  have hordered := horderly.ordered
  cases request with
  | addStep args =>
      intro ref hget
      have hclaims := horderly.claimsOwn env moment hfollows
      have hattended := hordered.attended.received hordered.sound.stored env.config moment args
      have hsound := hordered.sound.receiveStep env.config moment args
      have hsingle := single_received hordered.single hordered.sound.stored
        (hordered.sound.stored.receipt env.config moment args)
      have hfiled := hsound.index.filed hget
      obtain ⟨hstatus, howner, -⟩ := openedStep_parts moment hclaims hget
      unfold LeavesAttended
      dsimp only
      split_ifs with hdrops hraises
      · exact absurd hraises (not_claimRaises hclaims hget)
      · intro hrunning owner hmem
        rw [report_workerRunning, howner] at hmem
        have hruns := (Status.isRunning_iff.mp hrunning).resolve_right
          (report_not_batchRunning (hstatus ▸ hsingle.status ref hfiled) hclaims.2.1)
        obtain ⟨hran, -⟩ := report_went_on (fun hclaim => by
          obtain ⟨other, hget', hran, -⟩ := hclaims.2.2.1 hclaim
          obtain rfl : ref = other := Option.some.inj (hget.symm.trans hget')
          exact hstatus.trans hran) hruns
        exact .inl (hattended.owner ref hfiled (by rw [hstatus.symm.trans hran]; rfl) owner hmem)
  | getWork args =>
      obtain ⟨hassistant, hbatcher, -, -, hunmarked⟩ := hfollows
      exact ⟨hordered.looksAtFiled env moment hassistant, fun henabled ref hpick =>
        (hordered.picks_tended hassistant hbatcher hunmarked henabled hpick).1⟩
  | prune | dump | load => rfl
  | markAsDone | forgiveFailures | reEnableStep | disableWorker => cases hfollows.1
  | countPending | ping | addWorker | addStepBatcher | decreaseRunningStepResources
  | setStepStatusMessage | setStepProgressPercentage | updateResources | updateResource
  | pause | unpause => exact hfollows.2

/-- What one request does to the runs. -/
structure Course (env : Env) (assistants : WorkerId → Bool) (crew : Crew) (turn : Turn)
    (t : Scheduler) : Prop where
  single : t.Single
  staked : t.Staked assistants
  started : ∀ {worker id}, t.RunsFor id worker →
    (crew.scheduler.RunsFor id worker ∧ ¬Ends turn.event.request worker id) ∨
      HandsTo env crew.scheduler turn.event worker id
  kept : ∀ {worker id}, (worker, id) ∈ crew.held → ¬Ends turn.event.request worker id →
    t.RunsFor id worker
  runs : ∀ {worker id}, HandsTo env crew.scheduler turn.event worker id → t.RunsFor id worker
  /-- What is handed out is held by nobody. -/
  free : ∀ {worker other id}, HandsTo env crew.scheduler turn.event worker id →
    (other, id) ∉ crew.held

/-- A request that is not about runs. -/
theorem Course.quiet {t : Scheduler}
    (hadds : ∀ args, turn.event.request ≠ .addStep args)
    (hworks : ∀ args, turn.event.request ≠ .getWork args)
    (hsingle : t.Single) (hstaked : t.Staked assistants)
    (hstarted : ∀ {worker id}, t.RunsFor id worker → crew.scheduler.RunsFor id worker)
    (hkept : ∀ {worker id}, (worker, id) ∈ crew.held → t.RunsFor id worker) :
    Course env assistants crew turn t := by
  have hends : ∀ {worker id}, ¬Ends turn.event.request worker id := by
    intro worker id h
    unfold Ends at h
    split at h
    · exact hadds _ ‹_›
    · exact h
  have hhands : ∀ {worker id}, ¬HandsTo env crew.scheduler turn.event worker id := by
    intro worker id h
    unfold HandsTo at h
    split at h
    · exact hworks _ ‹_›
    · exact h
  exact ⟨hsingle, hstaked, fun h => .inl ⟨hstarted h, hends⟩, fun h _ => hkept h,
    fun h => absurd h hhands, fun h => absurd h hhands⟩

theorem Orderly.course_addStep (horderly : crew.Orderly assistants) {moment : Moment}
    {args : AddStepArgs} {answered : Bool} (hreports : crew.Reports assistants args) :
    Course env assistants crew ⟨⟨moment, .addStep args⟩, answered⟩
      (env.after crew.scheduler ⟨moment, .addStep args⟩) := by
  have hordered := horderly.ordered
  have hstored := hordered.sound.stored
  have hclaims := horderly.claimsOwn env moment hreports
  have hreceipt := hstored.receipt env.config moment args
  have hsingle := single_received hordered.single hstored hreceipt
  have hstaked := staked_received hordered.staked hstored hreceipt
  have hruns : ∀ {worker id}, (crew.scheduler.receiveStep env.config moment args).RunsFor id
      worker ↔ crew.scheduler.RunsFor id worker := runsFor_received hstored hreceipt
  obtain ⟨outcome, hadds, -⟩ := hordered.sound.after_addStep env moment args
  generalize env.after crew.scheduler ⟨moment, .addStep args⟩ = t at hadds ⊢
  generalize crew.scheduler.receiveStep env.config moment args = received at *
  obtain ⟨hbatch, hstatus, hassistant, hclaim, hnew⟩ := hreports
  cases hadds with
  | dropped hdropped =>
      refine ⟨hsingle, hstaked, fun {worker id} h => .inl ⟨hruns.mp h, ?_⟩,
        fun h _ => hruns.mpr (horderly.backed h), fun h => h.elim, fun h => h.elim⟩
      -- a step that runs is not dropped
      rintro ⟨hends, rfl, -⟩
      obtain ⟨ref, hget, hrunning, -⟩ := h
      have hdrops := hdropped ref hget
      unfold Step.dropsClaim at hdrops
      rw [hrunning] at hdrops
      simp at hdrops
  | failed hget _ hraises => exact absurd hraises (not_claimRaises hclaims hget)
  | accepted hget _ _ haccepts =>
      refine ⟨single_accepted hreceipt.stored hsingle hclaims hget haccepts,
        staked_accepted hreceipt.stored hsingle hclaims hget haccepts hstaked hassistant,
        fun h => ?_, fun {worker id} h hends => ?_, fun h => h.elim, fun h => h.elim⟩
      · obtain ⟨hran, hends⟩ :=
          runsFor_of_accepted hreceipt.stored hsingle hclaims hget haccepts h
        exact .inl ⟨hruns.mp hran, hends⟩
      · refine runsFor_accepted hreceipt.stored hsingle hclaims hget haccepts
          (hruns.mpr (horderly.backed h)) (fun hdeps hid => ?_) hends
        exact ((hnew hdeps).2 _ h hid.symm).symm

/-- One request of workers that keep order. -/
theorem Orderly.course (horderly : crew.Orderly assistants)
    (hfollows : crew.Follows env assistants turn) :
    Course env assistants crew turn (env.after crew.scheduler turn.event) := by
  obtain ⟨⟨moment, request⟩, answered⟩ := turn
  have hordered := horderly.ordered
  have hsound := hordered.sound
  by_cases hquiet : request.isQuiet = true
  · have hunmoved : Unmoved crew.scheduler (env.after crew.scheduler ⟨moment, request⟩) :=
      (rests_after env moment hquiet).unmoved
    refine .quiet ?_ ?_ (hunmoved.single hordered.single)
      (hunmoved.staked hordered.staked) hunmoved.runsFor.mp
      fun h => hunmoved.runsFor.mpr (horderly.backed h)
    · rintro args h
      rw [show request = .addStep args from h] at hquiet
      cases hquiet
    · rintro args h
      rw [show request = .getWork args from h] at hquiet
      cases hquiet
  cases request with
  | addStep args => exact horderly.course_addStep hfollows
  | getWork args =>
      obtain ⟨hassistant, hbatcher, hknown, halive, hunmarked⟩ := hfollows
      have hgives := hordered.gives hassistant hbatcher hunmarked
      refine ⟨hgives.single, hgives.staked, fun h => ?_, fun h _ =>
        hgives.kept (horderly.backed h) fun hprune => halive hprune _ h, ?_, ?_⟩
      · rcases hgives.started h with hran | ⟨hhanded, hworker⟩
        · exact .inl ⟨hran, fun hends => hends⟩
        · exact .inr ⟨hhanded, hworker.symm⟩
      · rintro worker id ⟨hhanded, rfl⟩
        exact hgives.runs hhanded
      · rintro worker other id ⟨hhanded, rfl⟩ hheld
        obtain ⟨rfl, ids, hids, hnot⟩ := hgives.free hhanded (horderly.backed hheld)
          fun hprune => halive hprune _ hheld
        exact hnot (hknown _ hheld rfl ids hids)
  | prune =>
      obtain ⟨t, hrun, hprunes⟩ :=
        prune_spec hsound.stored hsound.retriable env.config moment.now
      have hafter : env.after crew.scheduler ⟨moment, .prune⟩ = t :=
        congrArg Prod.snd (exec_reply (fun _ => Response.nothing) hrun)
      rw [hafter]
      exact .quiet (by rintro _ ⟨⟩) (by rintro _ ⟨⟩)
        (single_pruned hsound hordered.single hrun hprunes)
        (staked_pruned hsound hordered.single hrun hprunes hordered.staked)
        (runsFor_of_pruned hprunes) fun h => runsFor_pruned hsound hordered.attended
          hordered.single hrun hprunes (horderly.backed h) (hfollows _ h)
  | dump =>
      have hunmoved : Unmoved crew.scheduler crew.scheduler.dump :=
        ⟨fun _ => rfl, fun _ => rfl, fun _ => rfl, fun _ => rfl⟩
      exact .quiet (by rintro _ ⟨⟩) (by rintro _ ⟨⟩)
        (hunmoved.single hordered.single) (hunmoved.staked hordered.staked) hunmoved.runsFor.mp
        fun h => hunmoved.runsFor.mpr (horderly.backed h)
  | load =>
      obtain ⟨hheap, hnext, hsteps, hworkers, -⟩ := load_eq (u := crew.scheduler) hfollows
      have hunmoved : Unmoved crew.scheduler crew.scheduler.load :=
        SameContents.unmoved ⟨hheap, hnext, hsteps, hworkers⟩
      exact .quiet (by rintro _ ⟨⟩) (by rintro _ ⟨⟩)
        (hunmoved.single hordered.single) (hunmoved.staked hordered.staked) hunmoved.runsFor.mp
        fun h => hunmoved.runsFor.mpr (horderly.backed h)
  | markAsDone | forgiveFailures | reEnableStep | disableWorker => cases hfollows.1
  | countPending | ping | addWorker | addStepBatcher | decreaseRunningStepResources
  | setStepStatusMessage | setStepProgressPercentage | updateResources | updateResource
  | pause | unpause => exact absurd rfl hquiet

theorem Orderly.after (horderly : crew.Orderly assistants)
    (hfollows : crew.Follows env assistants turn) : (crew.after env turn).Orderly assistants where
  lasting := env.attending_after horderly.lasting (horderly.attends hfollows)
  single := (horderly.course hfollows).single
  staked := (horderly.course hfollows).staked
  backed := by
    intro worker id hheld
    have hcourse := horderly.course hfollows
    rcases mem_holdings.mp hheld with ⟨hold, hends⟩ | ⟨-, hhanded⟩
    · exact hcourse.kept hold hends
    · exact hcourse.runs hhanded

/-- Every run of the table is held by its worker. -/
def Exact (crew : Crew) : Prop :=
  ∀ {worker id}, crew.scheduler.RunsFor id worker → (worker, id) ∈ crew.held

/-- Only a reply that gets lost leaves a run that nobody holds. -/
theorem Exact.after (hexact : crew.Exact) (horderly : crew.Orderly assistants)
    (hfollows : crew.Follows env assistants turn) (hanswered : turn.answered = true) :
    (crew.after env turn).Exact := by
  intro worker id hruns
  apply mem_holdings.mpr
  rcases (horderly.course hfollows).started hruns with ⟨hran, hends⟩ | hhanded
  · exact .inl ⟨hexact hran, hends⟩
  · exact .inr ⟨hanswered, hhanded⟩

def start (resources : Resources) : Crew := { scheduler := .initial resources }

theorem start_orderly (assistants : WorkerId → Bool) (resources : Resources) :
    (start resources).Orderly assistants where
  lasting := by
    refine ⟨⟨(initial_sound resources).1, ⟨fun ref hfiled => ?_, fun ref hfiled => ?_⟩⟩,
      fun saved hsaved => ?_⟩
    · unfold Filed at hfiled
      cases hfiled
    · unfold Filed at hfiled
      cases hfiled
    · cases hsaved
  single := by constructor <;> intro ref hfiled <;> unfold Filed at hfiled <;> cases hfiled
  staked := fun worker _ ref hlisted => by cases hlisted
  backed := fun hheld => by cases hheld

section Runs

variable {resources : Resources} {turns : List Turn}
variable (hfollows : Along (after env) (Follows env assistants) (start resources) turns)
include hfollows

theorem run_orderly : (runAll (after env) (start resources) turns).Orderly assistants :=
  runAll_invariant (after env) (Follows env assistants) (Orderly assistants)
    (fun _ _ => Orderly.after) (start_orderly assistants resources) hfollows

/-- In every run of workers that follow `worker.py`, no step is handed out that a worker
holds, and no two workers ever hold the same step. -/
theorem no_step_is_held_twice :
    Along (after env) (fun crew turn => ∀ worker other id,
        HandsTo env crew.scheduler turn.event worker id → (other, id) ∉ crew.held)
      (start resources) turns ∧
    ∀ worker other id, (worker, id) ∈ (runAll (after env) (start resources) turns).held →
      (other, id) ∈ (runAll (after env) (start resources) turns).held → worker = other := by
  have horderly := run_orderly hfollows
  refine ⟨?_, fun worker other id hheld hother =>
    (horderly.backed hheld).unique (horderly.backed hother)⟩
  refine (along_invariant (after env) (Follows env assistants) (Orderly assistants)
    (fun _ _ => Orderly.after) (start_orderly assistants resources) hfollows).mono ?_
  rintro crew turn ⟨horderly, hturn⟩ worker other id
  exact (horderly.course hturn).free

/-- As long as no reply gets lost, the workers hold exactly the steps that run in the
table, each under the name of its worker. -/
theorem held_iff_runs (hanswered : ∀ turn ∈ turns, turn.answered = true) (worker : WorkerId)
    (id : StepId) :
    (worker, id) ∈ (runAll (after env) (start resources) turns).held ↔
      (runAll (after env) (start resources) turns).scheduler.RunsFor id worker := by
  refine ⟨(run_orderly hfollows).backed, ?_⟩
  have hexact : (runAll (after env) (start resources) turns).Orderly assistants ∧
      (runAll (after env) (start resources) turns).Exact := by
    refine runAll_invariant (after env) (fun crew turn => crew.Follows env assistants turn ∧
      turn.answered = true) (fun crew => crew.Orderly assistants ∧ crew.Exact)
      (fun crew turn h hturn => ⟨h.1.after hturn.1, Exact.after h.2 h.1 hturn.1 hturn.2⟩)
      ⟨start_orderly assistants resources, ?_⟩ (hfollows.and_forall hanswered)
    rintro worker id ⟨ref, hget, -⟩
    cases hget
  exact hexact.2

end Runs

end Crew

/-- Two workers share a step; a reply gets lost, and the scheduler is restarted. -/
def sharingTurns : List Turn :=
  [ ⟨requestAt 1 (schedules firstWorker "a"), true⟩,
    ⟨requestAt 2 (schedules secondWorker "a"), true⟩,
    ⟨requestAt 3 (schedules secondWorker "b"), true⟩,
    ⟨requestAt 4 (.getWork { worker := firstWorker, currentSteps := some [] }), true⟩,
    ⟨requestAt 5 (.getWork { worker := secondWorker, currentSteps := some [] }), false⟩,
    ⟨requestAt 6 .dump, true⟩,
    ⟨requestAt 7 .load, true⟩,
    ⟨requestAt 8 .prune, true⟩,
    ⟨requestAt 9 (.getWork { worker := secondWorker, currentSteps := some [] }), true⟩,
    ⟨requestAt 10 (.addStep
      { worker := firstWorker, stepId := "a", runnable := false, newDeps := some ["c"] }), true⟩ ]

theorem no_step_is_held_twice_sharing :
    Along (Crew.after defaultEnv) (fun crew turn => ∀ worker other id,
        Crew.HandsTo defaultEnv crew.scheduler turn.event worker id → (other, id) ∉ crew.held)
      (Crew.start ∅) sharingTurns ∧
    (runAll (Crew.after defaultEnv) (Crew.start ∅) sharingTurns).held = {(secondWorker, "b")} :=
  ⟨(@Crew.no_step_is_held_twice defaultEnv (fun _ => false) ∅ sharingTurns
    (by decide +kernel)).1, by decide +kernel⟩

/-- The same turns without the one whose reply gets lost. -/
def answeredTurns : List Turn := sharingTurns.filter (·.answered)

theorem held_iff_runs_answered :
    (secondWorker, "b") ∈ (runAll (Crew.after defaultEnv) (Crew.start ∅) answeredTurns).held ↔
      (runAll (Crew.after defaultEnv) (Crew.start ∅) answeredTurns).scheduler.RunsFor "b"
        secondWorker :=
  @Crew.held_iff_runs defaultEnv (fun _ => false) ∅ answeredTurns (by decide +kernel)
    (by decide +kernel) secondWorker "b"

/-- An assistant is handed a step that has been marked for removal, and runs it for so
long that the step is removed and scheduled anew. -/
def outlastingTurns : List Turn :=
  [ ⟨requestAt 1 (schedules firstWorker "a"), true⟩,
    ⟨requestAt 70 .prune, true⟩,
    ⟨requestAt 71 (.getWork
      { worker := thirdWorker, assistant := true, currentSteps := some [] }), true⟩,
    ⟨requestAt 690 (.ping thirdWorker), true⟩,
    ⟨requestAt 700 .prune, true⟩,
    ⟨requestAt 701 (schedules secondWorker "a"), true⟩,
    ⟨requestAt 702 (.getWork { worker := secondWorker, currentSteps := some [] }), true⟩ ]

/-- Two workers run the step then, which is why the condition on assistants is there. -/
example : (runAll (Crew.after defaultEnv) (Crew.start ∅) outlastingTurns).held =
    {(thirdWorker, "a"), (secondWorker, "a")} := by decide +kernel

end Trun
