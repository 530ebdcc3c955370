import Trun.Scheduler.Batching

/-!
# Batches with steps of other workers

The ranked loop tests whether the worker may run the step that it chooses, and
not whether it may run the steps that join its batch.  Where no step of another
worker could join a batch of this one, all that is handed out is ready for it.
-/

namespace Trun

open Program

namespace Scheduler

variable {s : Scheduler} {args : GetWorkArgs} {best member : Ref} {selection : Selection}

/-- The worker has a batcher for the family of the step, with room for another one and with names
that the step has all. -/
def Opens (s : Scheduler) (worker : WorkerId) (best : Ref) : Prop :=
  let batcher := s.getBatcher worker (s.stepAt best).family
  (s.stepAt best).batchable = true ∧ batcher.batchedArgs ≠ [] ∧
    fitsBatch 1 batcher.maxBatchSize = true ∧
    ∀ name ∈ batcher.batchedArgs, (s.stepAt best).params.contains name = true

instance (s : Scheduler) (worker : WorkerId) (best : Ref) : Decidable (s.Opens worker best) := by
  unfold Opens; infer_instance

/-- A worker that may start a batch with one of the steps may run every step of a lower rank that
can join it. -/
def SharesFairly (s : Scheduler) (args : GetWorkArgs) (refs : List Ref) (used : Resources) : Prop :=
  ∀ best ∈ refs, s.ReadyFor args best → s.hasResources (s.stepAt best).resources used = true →
    s.Opens args.worker best → ∀ ref ∈ refs,
      s.Joins (s.getBatcher args.worker (s.stepAt best).family).batchedArgs best ref →
      s.rankLe ref best → s.mayRun args ref = true

instance (s : Scheduler) (args : GetWorkArgs) (refs : List Ref) (used : Resources) :
    Decidable (s.SharesFairly args refs used) := by
  unfold SharesFairly; infer_instance

/-- Where no batch is open, none is extended. -/
theorem foldl_unopened (hchosen : selection.bestStep = some best)
    (hunopened : selection.batchedParams = none) (used : Resources) (below : List Ref) :
    below.foldl (s.considerStep args used) selection = selection := by
  have hturn : ∀ ref, s.considerStep args used selection ref = selection := by
    intro ref
    unfold Scheduler.considerStep
    rw [hchosen]
    dsimp only
    unfold extendBatch
    rw [hunopened]
  induction below with
  | nil => rfl
  | cons ref rest ih => rw [List.foldl_cons, hturn, ih]

/-- A step that cannot open a batch is chosen alone. -/
theorem chooseStep_alone
    (hidle : selection.batchedSteps = [] ∧ selection.batchedParams = none)
    (hunfit : ¬((s.stepAt best).batchable = true ∧
      (s.getBatcher args.worker (s.stepAt best).family).batchedArgs ≠ [] ∧
      ∀ name ∈ (s.getBatcher args.worker (s.stepAt best).family).batchedArgs,
        (s.stepAt best).params.contains name = true)) :
    (s.chooseStep args selection best).batchedSteps = [] ∧
      (s.chooseStep args selection best).batchedParams = none := by
  unfold chooseStep
  dsimp only
  split
  · next hbatch =>
      rw [Bool.and_eq_true, Bool.not_eq_true', List.isEmpty_eq_false_iff] at hbatch
      rw [if_neg]
      · exact ⟨hidle.1, rfl⟩
      · exact fun hall => hunfit ⟨hbatch.2, hbatch.1, List.all_eq_true.mp hall⟩
  · exact hidle

/-- A member of a batch is the chosen step, or it has a lower rank and can join it. -/
theorem batchedSteps_cases {config : Config} {now : Time}
    (hbest : (s.selectWork args config now none).bestStep = some best)
    (hmember : member ∈ (s.selectWork args config now none).batchedSteps) :
    member = best ∨ s.Opens args.worker best ∧
      member ∈ (s.relevantSteps args config now).1 ∧
      s.Joins (s.getBatcher args.worker (s.stepAt best).family).batchedArgs best member ∧
      s.rankLe member best := by
  have hselect : s.selectWork args config now none =
      (s.rankedSteps args config now).foldl
        (s.considerStep args (s.relevantSteps args config now).2.1)
        { greedyWorkers := (s.relevantSteps args config now).2.2 } := rfl
  rw [hselect] at hbest hmember
  obtain ⟨above, below, earlier, horder, hidle, hloop⟩ := foldl_chooses rfl ⟨rfl, rfl⟩ hbest
  rw [hloop] at hmember
  by_cases hopens : (s.stepAt best).batchable = true ∧
      (s.getBatcher args.worker (s.stepAt best).family).batchedArgs ≠ [] ∧
      ∀ name ∈ (s.getBatcher args.worker (s.stepAt best).family).batchedArgs,
        (s.stepAt best).params.contains name = true
  · have hstart : s.Batches _ best [best] (s.chooseStep args earlier best) :=
      .choose rfl hopens.1 hopens.2.1 hopens.2.2 hidle.1
    have hbatches : s.Batches _ best _ (below.foldl _ _) :=
      @Batches.foldl s args _ best _ _ hstart hopens.2.1 (s.relevantSteps args config now).2.1 below
    rw [hbatches.steps, List.singleton_append, List.length_singleton, List.mem_cons] at hmember
    refine hmember.imp_right fun hjoined => ?_
    have hfits : fitsBatch 1
        (s.getBatcher args.worker (s.stepAt best).family).maxBatchSize = true := by
      by_contra hfull
      rw [fillUp_of_full (Bool.eq_false_of_not_eq_true hfull)] at hjoined
      cases hjoined
    obtain ⟨hbelow, hjoins⟩ := List.mem_filter.mp ((fillUp_sublist ..).subset hjoined)
    have hsorted : (s.rankedSteps args config now).Pairwise fun higher lower =>
        s.rankLe lower higher := List.pairwise_insertionSort _ _
    have hranked : member ∈ s.rankedSteps args config now := by
      rw [horder]
      exact List.mem_append_right _ (List.mem_cons_of_mem _ hbelow)
    rw [horder, List.pairwise_append, List.pairwise_cons] at hsorted
    exact ⟨⟨hopens.1, hopens.2.1, hfits, hopens.2.2⟩, (List.mem_insertionSort _).mp hranked,
      of_decide_eq_true hjoins, hsorted.2.1.1 member hbelow⟩
  · obtain ⟨hnone, hunopened⟩ := chooseStep_alone hidle hopens
    rw [foldl_unopened (chooseStep_cases s args earlier best).1 hunopened, hnone] at hmember
    cases hmember

end Scheduler

open Scheduler

namespace Env

variable (env : Env)

/-- At a call of `get_work` of an enabled worker that lost no step, no step that it may not run
can join a batch of its own. -/
def SharesFairly (s : Scheduler) (moment : Moment) (args : GetWorkArgs) : Prop :=
  ((env.received s moment args).workerAt args.worker).enabled = true →
    (env.received s moment args).lostStep args = none →
    let (relevant, used, _) := (env.ranked s moment args).relevantSteps args env.config moment.now
    (env.ranked s moment args).SharesFairly args relevant used

instance (s : Scheduler) (moment : Moment) (args : GetWorkArgs) :
    Decidable (env.SharesFairly s moment args) := by
  unfold SharesFairly; infer_instance

/-- The request looks at steps of the table, and batches are shared fairly. -/
def HandsOutFairly (s : Scheduler) (event : Event) : Prop :=
  match event.request with
  | .getWork args =>
      env.LooksAtFiledSteps s event.moment args ∧ env.SharesFairly s event.moment args
  | _ => True

instance (s : Scheduler) (event : Event) : Decidable (env.HandsOutFairly s event) := by
  obtain ⟨moment, request⟩ := event
  induction request using Request.casesOn <;> dsimp only [HandsOutFairly] <;> infer_instance

theorem HandsOutFairly.handsOut {s : Scheduler} {event : Event} {env : Env}
    (hfair : env.HandsOutFairly s event) : HandsOutFiledSteps env s event := by
  obtain ⟨moment, request⟩ := event
  cases request with
  | getWork args => exact hfair.1
  | _ => exact trivial

/-- What is chosen in a fair call. -/
theorem picks_ready {s : Scheduler} {moment : Moment} {args : GetWorkArgs} (hsound : s.Sound)
    (henabled : ((env.received s moment args).workerAt args.worker).enabled = true)
    (hfair : env.SharesFairly s moment args) {selection : Selection}
    (hselection : selection = (env.ranked s moment args).selectWork args env.config moment.now
      ((env.received s moment args).lostStep args)) :
    (∀ best, selection.bestStep = some best →
      (env.ranked s moment args).ReadyFor args best ∨
        (env.ranked s moment args).LostBy args best) ∧
      ∀ member ∈ selection.batchedSteps, (env.ranked s moment args).ReadyFor args member := by
  have hselected := selectWork_selected (env.ranked s moment args) args env.config moment.now
    ((env.received s moment args).lostStep args)
  rw [hselection]
  cases hlost : (env.received s moment args).lostStep args with
  | some taken =>
      rw [hlost] at hselected
      obtain ⟨htaken, hempty, -⟩ := hselected.taken taken rfl
      rw [htaken, hempty]
      refine ⟨fun best hbest => ?_, nofun⟩
      obtain rfl := Option.some.inj hbest
      exact .inr (env.lostBy_of_lostStep hsound hlost)
  | none =>
      rw [hlost] at hselected
      have hchosen : ∀ best, ((env.ranked s moment args).selectWork args env.config moment.now
          none).bestStep = some best → (env.ranked s moment args).ReadyFor args best := by
        intro best hbest
        obtain ⟨-, hready, -, hworkers⟩ := hselected.best rfl best hbest
        exact readyFor_of_schedulable hready hworkers
      refine ⟨fun best hbest => .inl (hchosen best hbest), fun member hmember => ?_⟩
      obtain ⟨hready, -, best, -, hbest, -⟩ := hselected.batched member hmember
      obtain ⟨hmem, -, hfits, -⟩ := hselected.best rfl best hbest
      rcases batchedSteps_cases hbest hmember with rfl | ⟨hopens, hlooked, hjoins, hrank⟩
      · exact hchosen member hbest
      · exact readyFor_of_schedulable hready (hfair henabled hlost best
          ((List.mem_insertionSort _).mp hmem) (hchosen best hbest) hfits hopens member hlooked
          hjoins hrank)

/-- One fair call on a sound state. -/
theorem handsOut_ready {s : Scheduler} {event : Event} (hsound : s.Sound)
    (hfair : env.HandsOutFairly s event) :
    env.HandsOutReadySteps s event ∧ env.KeepsOtherStatuses s event := by
  obtain ⟨moment, request⟩ := event
  cases request with
  | getWork args =>
      obtain ⟨hlooks, hextends⟩ := hfair
      obtain ⟨outcome, hworks, houtcome⟩ := hsound.after_getWork env moment hlooks
      have hstatus : env.config.pruneOnGetWork = false → ∀ (u : Scheduler) (ref : Ref),
          u.stepAt ref = (env.ranked s moment args).stepAt ref →
          (u.stepAt ref).status = (s.stepAt ref).status ∨
            ((s.stepAt ref).status = .batchRunning ∧
              (s.stepAt ref).workerRunning = some args.worker ∧
              (u.stepAt ref).status = .pending) := by
        intro hprune u ref hsame
        rw [hsame]
        exact (env.status_ranked hsound hprune ref).2
      unfold HandsOutReadySteps KeepsOtherStatuses
      rw [houtcome]
      generalize env.after s ⟨moment, .getWork args⟩ = t at hworks
      cases hworks with
      | refused hreceives hdisabled =>
          refine ⟨fun _ _ => trivial, fun hprune henabled id ref hget => ?_⟩
          have hgreets := hreceives.greets hprune
          exact .inl (by rw [hgreets.stepAt])
      | @failed counted error hreceives henabled hprepares hgreets hraises =>
          refine ⟨trivial, fun hprune _ id ref _ => ?_⟩
          exact (hstatus hprune _ ref (hgreets.stepAt ref)).imp_right .inr
      | @served counted t pending work hreceives henabled hprepares hgreets hhands =>
          have hfiled : ∀ ref ∈ ((env.ranked s moment args).selectWork args env.config moment.now
              ((env.received s moment args).lostStep args)).picks,
              (env.ranked s moment args).Filed ref := fun ref href =>
            (picks_filed env moment args ref hsound.stored hsound.retriable henabled hlooks
              href).1
          obtain ⟨hbest, hbatched⟩ := env.picks_ready hsound henabled hextends rfl
          obtain ⟨hready, hothers⟩ := hhands.ready hgreets hfiled hbest hbatched
          refine ⟨fun _ _ => hready, fun hprune _ id ref hget => ?_⟩
          rcases hothers ref with hsame | hhanded
          · exact (hstatus hprune t ref hsame).imp_right .inr
          · refine .inr (.inl ⟨⟨pending, work⟩, rfl, ?_⟩)
            rw [(env.status_ranked hsound hprune ref).1, hsound.index.step_id hget] at hhanded
            exact hhanded
  | _ => exact ⟨trivial, trivial⟩

/-- In every run whose calls of `get_work` share batches fairly, every step that is
handed out is ready for its worker, and no other step changes its status. -/
theorem handsOut_ready_along {resources : Resources} {events : List Event}
    (hfair : Along env.after env.HandsOutFairly (.initial resources) events) :
    Along env.after (fun s event => env.HandsOutReadySteps s event ∧
      env.KeepsOtherStatuses s event) (.initial resources) events := by
  have halong := along_invariant env.after _ (Lasting Sound)
    (fun _ _ hlasting hevent => (Sound.after hlasting (HandsOutFairly.handsOut hevent)).1)
    (initial_sound resources) hfair
  exact halong.mono fun s event h => env.handsOut_ready h.1.1 h.2

end Env

/-- The worker gets the step of the other one as a member of its batch. -/
theorem foreign_step_joins :
    Timely (sharedFamily ++ [sharedRequest]) ∧ batchEnv.config.pruneOnGetWork = false ∧
      ¬batchEnv.HandsOutReadySteps (batchEnv.run (.initial ∅) sharedFamily)
        sharedRequest := by
  decide +kernel

/-- Both members are the worker's own. -/
theorem own_family_is_ready :
    Along batchEnv.after (fun s event => batchEnv.HandsOutReadySteps s event ∧
      batchEnv.KeepsOtherStatuses s event) (.initial ∅) ownFamily :=
  batchEnv.handsOut_ready_along (by decide +kernel)

end Trun
