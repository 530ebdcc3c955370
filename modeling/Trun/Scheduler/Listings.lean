import Trun.Scheduler.Answering

/-!
# The two ways of listing a worker's steps

`Worker.get_steps` filters either the references the worker keeps or the status
buckets.  On a sound state the two filters agree for a worker exactly as long as
every step it keeps is still in the table, and only `prune` takes steps out.
-/

namespace Trun

open Program

namespace Scheduler

variable {s t : Scheduler}

/-- The two filters of `get_steps` yield the same steps. -/
def ListingsAgree (s : Scheduler) : Prop :=
  ∀ worker ∈ s.activeWorkers.values, worker.enabled = true →
    ∀ statuses ref, ref ∈ worker.selfSteps s statuses ↔ ref ∈ worker.stateSteps s statuses

/-- Every step that a worker keeps is the one in the table. -/
def Fresh (s : Scheduler) : Prop :=
  ∀ worker ref, ref ∈ (s.workerAt worker).steps → s.Filed ref

theorem Rostered.workerAt_of_mem (hrostered : s.Rostered) {worker : Worker}
    (hworker : worker ∈ s.activeWorkers.values) : s.workerAt worker.id = worker := by
  obtain ⟨id, hget⟩ := (Dict.mem_values_iff ..).mp hworker
  have hworkerAt : s.workerAt id = worker := workerAt_eq hget
  have hid : worker.id = id := hworkerAt ▸ hrostered.worker_id id
  rw [hid, hworkerAt]

theorem mem_selfSteps {worker : Worker} {statuses : List Status} {ref : Ref} :
    ref ∈ worker.selfSteps s statuses ↔
      ref ∈ worker.steps ∧ (s.stepAt ref).status ∈ statuses := by
  simp only [Worker.selfSteps, List.mem_filter, decide_eq_true_eq]
  rfl

theorem Indexed.mem_stateSteps (hindex : s.Indexed) {worker : Worker} {statuses : List Status}
    {ref : Ref} :
    ref ∈ worker.stateSteps s statuses ↔
      (s.Filed ref ∧ (s.stepAt ref).status ∈ statuses) ∧
        worker.id ∈ (s.stepAt ref).workers := by
  simp only [Worker.stateSteps, List.mem_filter, decide_eq_true_eq, hindex.mem_activeStepsByStatus]

/-- A worker's filters agree exactly when it keeps no removed step. -/
theorem Sound.filters_agree_iff (hsound : s.Sound) {worker : Worker}
    (hworker : worker ∈ s.activeWorkers.values) :
    (∀ statuses ref, ref ∈ worker.selfSteps s statuses ↔ ref ∈ worker.stateSteps s statuses) ↔
      ∀ ref ∈ worker.steps, s.Filed ref := by
  have hworkerAt := hsound.rostered.workerAt_of_mem hworker
  constructor
  · intro hagree ref hlisted
    have hself : ref ∈ worker.selfSteps s [(s.stepAt ref).status] :=
      mem_selfSteps.mpr ⟨hlisted, List.mem_singleton_self _⟩
    exact (hsound.index.mem_stateSteps.mp ((hagree _ _).mp hself)).1.1
  · intro hfiled statuses ref
    rw [mem_selfSteps, hsound.index.mem_stateSteps]
    constructor
    · rintro ⟨hlisted, hstatus⟩
      have hknows : worker.id ∈ _ := hsound.rostered.knows (hworkerAt.symm ▸ hlisted)
      exact ⟨⟨hfiled ref hlisted, hstatus⟩, hknows⟩
    · rintro ⟨⟨href, hstatus⟩, hknows⟩
      have hlists := (hsound.rostered.lists href hknows).2
      exact ⟨hworkerAt ▸ hlists, hstatus⟩

theorem Sound.listingsAgree (hsound : s.Sound) (hfresh : s.Fresh) : s.ListingsAgree := by
  intro worker hworker _
  refine (hsound.filters_agree_iff hworker).mpr fun ref hlisted => hfresh worker.id ref ?_
  rwa [hsound.rostered.workerAt_of_mem hworker]

/-! ## What keeps the references fresh -/

theorem Extends.fresh (hextends : Extends s t) (hfresh : s.Fresh) : t.Fresh :=
  fun worker ref hlisted => (hextends.listed hlisted).elim
    (fun hold => hextends.filed ref (hfresh worker ref hold)) id

theorem Fresh.congr (hfresh : s.Fresh) (hfiled : ∀ ref, t.Filed ref ↔ s.Filed ref)
    (hlisted : ∀ worker, (t.workerAt worker).steps = (s.workerAt worker).steps) : t.Fresh :=
  fun worker ref h => (hfiled ref).mpr (hfresh worker ref (hlisted worker ▸ h))

theorem Prepares.listed {now : Time} {args : GetWorkArgs} (hprepares : Prepares now args s t)
    (worker : WorkerId) : (t.workerAt worker).steps = (s.workerAt worker).steps := by
  obtain ⟨u, hgreets, hsame⟩ := hprepares.greeted
  rw [hsame.workerAt, (hgreets.worker worker).2.1]

theorem Prunes.listed {config : Config} {now : Time} (hprunes : Prunes config now s t)
    {worker : WorkerId} {ref : Ref} (hlisted : ref ∈ (t.workerAt worker).steps) :
    ref ∈ (s.workerAt worker).steps := by
  obtain ⟨swept, removed, hsweeps, hdrops, -⟩ := hprunes.outcome
  have hworkers : t.activeWorkers = (s.pruneWorkers config now).activeWorkers :=
    hdrops.surroundings.activeWorkers.trans hsweeps.same.activeWorkers
  have hworkerAt : t.workerAt worker = (s.pruneWorkers config now).workerAt worker := by
    simp only [workerAt, hworkers]
  rw [hworkerAt] at hlisted
  exact (hprunes.inactivates.listed hlisted).2

theorem Receives.listed {env : Env} {moment : Moment} (hreceives : Receives env moment s t)
    {worker : WorkerId} {ref : Ref} (hlisted : ref ∈ (t.workerAt worker).steps) :
    ref ∈ (s.workerAt worker).steps := by
  cases hprune : env.config.pruneOnGetWork with
  | true =>
      obtain ⟨u, hprunes, hgreets⟩ := hreceives.prunes hprune
      exact hprunes.listed ((hgreets.worker worker).2.1 ▸ hlisted)
  | false => exact ((hreceives.greets hprune).worker worker).2.1 ▸ hlisted

theorem HandsOut.fresh {env : Env} {now : Time} {worker : WorkerId} {selection : Selection}
    {work : Work} (hhands : HandsOut env now worker selection s work t) (hfresh : s.Fresh) :
    t.Fresh := by
  have hkeeps : ∀ {change : Step → Step} {refs : List Ref}, Hands change refs s t →
      (∀ step, (change step).id = step.id) → t.Fresh := by
    intro change refs hands hid
    refine hfresh.congr (fun ref => ?_) fun other => by rw [hands.same.workerAt]
    have hsame : (t.stepAt ref).id = (s.stepAt ref).id := by
      rw [hands.object]
      split
      · exact hid _
      · rfl
    unfold Filed
    rw [hands.same.getStep, hsame]
  cases hhands with
  | nothing => exact hfresh
  | single _ _ hands => exact hkeeps hands fun _ => Step.handed_id ..
  | batch _ _ hands => exact hkeeps hands fun _ => Step.reserved_id ..

theorem GetsWork.fresh {env : Env} {moment : Moment} {args : GetWorkArgs}
    {outcome : Except Raised Reply} (hworks : GetsWork env moment args s outcome t)
    (hreceived : (env.received s moment args).Fresh) : t.Fresh := by
  have hranked : ∀ {u}, Prepares moment.now args (env.received s moment args) u → u.Fresh :=
    fun hprepares => hreceived.congr hprepares.filed hprepares.listed
  cases hworks with
  | refused => exact hreceived
  | failed _ _ hprepares hgreets _ => exact hgreets.extends.fresh (hranked hprepares)
  | served _ _ hprepares hgreets hhands =>
      exact hhands.fresh (hgreets.extends.fresh (hranked hprepares))

/-- Fresh references lead `get_work` to steps of the table only. -/
theorem Sound.looksAtFiledSteps {env : Env} {moment : Moment} {args : GetWorkArgs}
    (hsound : s.Sound) (hreceived : (env.received s moment args).Fresh) :
    env.LooksAtFiledSteps s moment args := by
  intro _ ref hrelevant _
  obtain ⟨-, hreceives, -, -⟩ := receiveRequest_spec env moment args hsound.stored hsound.retriable
  obtain ⟨-, hprepares⟩ := prepares_ranked env moment args hsound.stored hsound.retriable
  have hranked := (hsound.receives hreceives).prepares hprepares
  have hfresh : (env.ranked s moment args).Fresh :=
    hreceived.congr hprepares.filed hprepares.listed
  apply hranked.filed_relevantSteps _ hrelevant
  intro statuses listed hlisted
  unfold Worker.getSteps at hlisted
  dsimp only at hlisted
  split_ifs at hlisted
  · exact hfresh args.worker listed (mem_selfSteps.mp hlisted).1
  · exact (hranked.index.mem_stateSteps.mp hlisted).1.1

end Scheduler

open Scheduler

namespace Env

variable (env : Env)

/-- The state that the pruning of a request leaves, where there is any. -/
def swept (s : Scheduler) (event : Event) : Scheduler :=
  match event.request with
  | .prune => env.after s event
  | .getWork args => env.received s event.moment args
  | _ => s

/-- Pruning removes no step that a worker it leaves active keeps. -/
def KeepsListedSteps (s : Scheduler) (event : Event) : Prop :=
  ∀ worker ∈ (env.swept s event).activeWorkers.values, ∀ ref ∈ worker.steps.elems,
    s.Filed ref → (env.swept s event).Filed ref

instance (s : Scheduler) (event : Event) : Decidable (env.KeepsListedSteps s event) := by
  unfold KeepsListedSteps; infer_instance

/-- A sound state without stale references. -/
def Tidy (s : Scheduler) : Prop := s.Sound ∧ s.Fresh

variable {env} {s : Scheduler}

theorem KeepsListedSteps.fresh {event : Event} (hkeeps : env.KeepsListedSteps s event)
    (hlisted : ∀ {worker ref}, ref ∈ ((env.swept s event).workerAt worker).steps →
      ref ∈ (s.workerAt worker).steps) (hfresh : s.Fresh) : (env.swept s event).Fresh := by
  intro worker ref h
  cases hget : (env.swept s event).activeWorkers.get? worker with
  | none =>
      simp only [workerAt, Dict.getD, hget, Option.getD_none] at h
      exact absurd h (OrderedSet.not_mem_empty ref)
  | some found =>
      have hworker : found ∈ (env.swept s event).activeWorkers.values :=
        (Dict.mem_values_iff ..).mpr ⟨worker, hget⟩
      refine hkeeps found hworker ref ?_ (hfresh worker ref (hlisted h))
      rw [workerAt_eq hget] at h
      exact h

/-- The condition of this module implies the one for the index. -/
theorem KeepsListedSteps.handsOut {event : Event} (htidy : Tidy s)
    (hkeeps : env.KeepsListedSteps s event) : HandsOutFiledSteps env s event := by
  obtain ⟨moment, request⟩ := event
  cases request with
  | getWork args =>
      obtain ⟨-, hreceives, -, -⟩ :=
        receiveRequest_spec env moment args htidy.1.stored htidy.1.retriable
      exact htidy.1.looksAtFiledSteps (hkeeps.fresh (fun h => hreceives.listed h) htidy.2)
  | _ => trivial

theorem tidy_after {event : Event} (hlasting : Lasting Tidy s)
    (hkeeps : env.KeepsListedSteps s event) : Lasting Tidy (env.after s event) := by
  have hhands := hkeeps.handsOut hlasting.1
  have hsaved : Lasting Sound s := ⟨hlasting.1.1, fun saved h =>
    (hlasting.2 saved h).imp fun _ hu => ⟨hu.1.1, hu.2⟩⟩
  obtain ⟨hafter, -⟩ := Sound.after hsaved hhands
  obtain ⟨moment, request⟩ := event
  have hfresh : ∀ {t : Scheduler}, t.Sound → t.Fresh → t.saved = s.saved → Lasting Tidy t :=
    fun hsound hfresh hsame => ⟨⟨hsound, hfresh⟩, fun saved h => hlasting.2 saved (hsame ▸ h)⟩
  by_cases hordinary : request.isOrdinary = true
  · obtain ⟨-, hextends, -⟩ :=
      hlasting.1.1.serve_meets env moment hordinary
    exact hfresh hafter.1 (hextends.fresh hlasting.1.2) hextends.saved
  · cases request with
    | getWork args =>
        obtain ⟨-, hreceives, -, -⟩ :=
          receiveRequest_spec env moment args hlasting.1.1.stored hlasting.1.1.retriable
        obtain ⟨outcome, hworks, -⟩ := hlasting.1.1.after_getWork _ _ hhands
        have hreceived := hkeeps.fresh (fun h => hreceives.listed h) hlasting.1.2
        exact hfresh hafter.1 (hworks.fresh hreceived) hworks.saved
    | prune =>
        obtain ⟨hprunes, -⟩ := hlasting.1.1.after_prune env moment
        exact hfresh hafter.1 (hkeeps.fresh (fun h => hprunes.listed h) hlasting.1.2)
          hprunes.saved
    | dump =>
        refine ⟨⟨hafter.1, hlasting.1.2⟩, fun saved h => ?_⟩
        exact ⟨s, hlasting.1, (Option.some.inj h).symm⟩
    | load =>
        have hloaded : s.load.Fresh := by
          cases hfile : s.saved with
          | none =>
              have hload : s.load = s := by simp only [Scheduler.load, hfile]
              rw [hload]
              exact hlasting.1.2
          | some saved =>
              obtain ⟨u, htidy, rfl⟩ := hlasting.2 saved hfile
              obtain ⟨hheap, -, hsteps, hworkers, -⟩ := load_eq hfile
              refine htidy.2.congr (fun ref => ?_) fun worker => ?_
              · simp only [Filed, Scheduler.getStep, stepAt, hheap, hsteps]
              · simp only [workerAt, hworkers]
        exact hfresh hafter.1 hloaded (saved_load hsaved)
    | _ => exact absurd rfl hordinary

theorem initial_tidy (resources : Resources) : Lasting Tidy (Scheduler.initial resources) :=
  ⟨⟨(initial_sound resources).1, fun _ ref h => absurd h (OrderedSet.not_mem_empty ref)⟩,
    fun _ h => by cases h⟩

/-- Where no pruning removes a step that a remaining worker keeps, the two ways of
listing agree in every state of the run. -/
theorem listings_agree_along {resources : Resources} {events : List Event}
    (hkeeps : Along env.after env.KeepsListedSteps (.initial resources) events) :
    (Scheduler.initial resources).ListingsAgree ∧
      Along env.after (fun s event => (env.after s event).ListingsAgree)
        (.initial resources) events := by
  have hinitial := (initial_tidy resources).1
  refine ⟨hinitial.1.listingsAgree hinitial.2, ?_⟩
  have halong := along_invariant env.after _ (Lasting Tidy)
    (fun _ _ hlasting hevent => tidy_after hlasting hevent) (initial_tidy resources) hkeeps
  refine halong.mono ?_
  rintro s event ⟨hlasting, hevent⟩
  have hafter := (tidy_after hlasting hevent).1
  exact hafter.1.listingsAgree hafter.2

end Env

/-- The assistant still keeps the step that was pruned. -/
theorem outlived_listings_differ :
    Timely outlivingRun ∧ ¬(defaultEnv.run (.initial ∅) outlivingRun).ListingsAgree := by
  refine ⟨by decide +kernel, fun hagree => ?_⟩
  have hworker : (defaultEnv.run (.initial ∅) outlivingRun).workerAt firstWorker ∈
      (defaultEnv.run (.initial ∅) outlivingRun).activeWorkers.values := by decide +kernel
  have hself : 0 ∈ ((defaultEnv.run (.initial ∅) outlivingRun).workerAt firstWorker).selfSteps
      (defaultEnv.run (.initial ∅) outlivingRun) [.pending] := by decide +kernel
  have hstate := (hagree _ hworker (by decide +kernel) [.pending] 0).mp hself
  revert hstate
  decide +kernel

theorem clean_run_listings_agree :
    (Scheduler.initial ∅).ListingsAgree ∧
      Along defaultEnv.after (fun s event => (defaultEnv.after s event).ListingsAgree)
        (.initial ∅) cleanRun :=
  Env.listings_agree_along (by decide +kernel)

end Trun
