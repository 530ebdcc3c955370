import Mathlib.Data.Set.Finite.Basic
import Trun.Program.Executions
import Trun.Worker.Planning

/-!
# A whole run of one worker

`add` and then `run` of a worker that has a new scheduler to itself, for steps
whose requirements are fixed and whose `run` is no generator.  Between two
rounds of the main loop nothing runs, and the board says which steps have been
executed with success.  Each round executes one step that is ready, until none
is left.
-/

namespace Trun

open Program

/-- The call of `run` returned, and `on_success` did not raise after it. -/
def Run.succeeded {σ : Type} (code : StepCode σ) (run : Run σ) : Bool :=
  match run.ending, code.onSuccess run.stepId with
  | .returned, .ok _ => true
  | _, _ => false

namespace StepCode

variable {σ : Type} {code : StepCode σ} {id : StepId} {world : σ}

/-- What a step requires does not change, and `run` of an incomplete step is no generator: it
makes the step complete where it returns, and changes the completeness of no other step. -/
structure Steady (code : StepCode σ) : Prop where
  requires : ∀ id world other, code.requires id world = code.requires id other
  run : ∀ id world, code.external id = false → code.complete id world = .answers false →
    ∃ last, (code.run id world = .returns last ∧ code.complete id last = .answers true ∨
      ∃ failure, code.run id world = .raises last failure) ∧
      ∀ other, other ≠ id → code.complete other last = code.complete other world

theorem Steady.deps (hsteady : code.Steady) (id : StepId) (world other : σ) :
    code.deps id world = code.deps id other := by
  rw [StepCode.deps, StepCode.deps, hsteady.requires id world other]

/-- Without a cache the step is asked, and nothing is remembered. -/
theorem checkComplete_default (cache : CompletionCache) (id : StepId) :
    code.checkComplete {} world cache id = ((code.complete id world).truth, cache) := rfl

/-- Where all dependencies are complete none is missing. -/
theorem findMissing_of_complete {deps : List StepId} (cache : CompletionCache)
    (hcomplete : ∀ dep ∈ deps, code.complete dep world = .answers true) :
    code.findMissing {} world cache deps = ([], none, cache) := by
  induction deps with
  | nil => rfl
  | cons dep deps ih =>
      obtain ⟨hdep, hdeps⟩ := List.forall_mem_cons.mp hcomplete
      rw [findMissing, checkComplete_default, hdep]
      exact ih hdeps

/-- The process of a step whose dependencies are complete calls `run`. -/
theorem Steady.process (hsteady : code.Steady) {deps : List StepId}
    (hexternal : code.external id = false) (hincomplete : code.complete id world = .answers false)
    (hdeps : code.deps id world = .ok deps)
    (hcomplete : ∀ dep ∈ deps, code.complete dep world = .answers true)
    (cache : CompletionCache) :
    ∃ last run result, code.process {} id world cache = ⟨last, cache, some run, result⟩ ∧
      run.stepId = id ∧ result.stepId = id ∧ result.newDeps = [] ∧ result.missing = [] ∧
      result.status = (if run.succeeded code then .done else .failed) ∧
      (run.succeeded code = true → code.complete id last = .answers true) ∧
      ∀ other, other ≠ id → code.complete other last = code.complete other world := by
  have hcheck : code.checkDeps {} id world cache = ([], none, cache) := by
    rw [checkDeps, hexternal]
    simp only [Bool.not_false, Bool.and_self, if_true, hdeps,
      findMissing_of_complete cache hcomplete]
  obtain ⟨last, hrun, hothers⟩ := hsteady.run id world hexternal hincomplete
  rw [StepCode.process, hcheck]
  simp only [hexternal, Bool.false_eq_true, if_false]
  rcases hrun with ⟨hreturns, hmade⟩ | ⟨failure, hraises⟩
  · have hget :
        code.runGetNewDeps {} id world cache = (last, cache, ⟨id, [], .returned, last⟩) := by
      rw [runGetNewDeps, hreturns, followGenerator]
    rw [hget]
    cases honSuccess : code.onSuccess id with
    | ok expl =>
        have hresult : code.runResult {} id last cache .returned =
            ({ stepId := id, status := .done, expl := expl }, cache) := by
          simp [runResult, newDeps, doneResult, successResult, honSuccess]
        have hsucceeded : Run.succeeded code ⟨id, [], .returned, last⟩ = true := by
          simp [Run.succeeded, honSuccess]
        rw [hresult]
        exact ⟨_, _, _, rfl, rfl, rfl, rfl, rfl, by rw [if_pos hsucceeded], fun _ => hmade, hothers⟩
    | error failure =>
        have hresult : code.runResult {} id last cache .returned =
            (code.failedResult id failure [], cache) := by
          simp [runResult, newDeps, doneResult, successResult, honSuccess]
        have hsucceeded : ¬Run.succeeded code ⟨id, [], .returned, last⟩ = true := by
          simp [Run.succeeded, honSuccess]
        rw [hresult]
        exact ⟨_, _, _, rfl, rfl, rfl, rfl, rfl, by rw [if_neg hsucceeded]; rfl,
          fun h => absurd h hsucceeded, hothers⟩
  · have hget : code.runGetNewDeps {} id world cache =
        (last, cache, ⟨id, [], .raised failure, last⟩) := by
      rw [runGetNewDeps, hraises, followGenerator]
    have hsucceeded : ¬Run.succeeded code ⟨id, [], .raised failure, last⟩ = true := by
      simp [Run.succeeded]
    rw [hget]
    exact ⟨_, _, _, rfl, rfl, rfl, rfl, rfl, by rw [if_neg hsucceeded]; rfl,
      fun h => absurd h hsucceeded, hothers⟩

end StepCode

namespace Setting

variable {σ : Type} (setting : Setting σ)

/-- The step is incomplete and not external, and its methods do not raise. -/
def Offers (world : σ) (id : StepId) : Prop :=
  setting.code.complete id world = .answers false ∧ setting.code.external id = false ∧
    ∃ deps, setting.code.deps id world = .ok deps

/-- The step is complete. -/
def There (world : σ) (id : StepId) : Prop := setting.code.complete id world = .answers true

/-- The step is one of those that the worker was asked for, or they lead to it. -/
def Asked (world : σ) (roots : List StepId) (id : StepId) : Prop :=
  ∃ root ∈ roots, Leads (setting.nextSteps world) root id

/-- What is noted about a step that was executed. -/
def reportNote (entry : StepId × Bool) : StepId × Status × Option Bool :=
  (entry.1, if entry.2 then .done else .failed, none)

/-- What an execution has made of the card of a step. -/
structure Shows (world : σ) (done : List (StepId × Bool)) (id : StepId) (card : Card) :
    Prop where
  deps : card.deps = (setting.nextSteps world id).toFinset
  mine : card.mine = (setting.planOf world id).runnable
  untouched : id ∉ done.map Prod.fst → card.status = (setting.planOf world id).status
  success : (id, true) ∈ done → card.status = .done
  failure : (id, false) ∈ done → card.status = .failed ∨ card.status = .disabled

/-- Between two rounds of the main loop, after some steps were executed. -/
structure Resting (world : σ) (roots : List StepId) (done : List (StepId × Bool)) (w : Session σ) :
    Prop where
  lone : Scheduler.Lone setting.worker w.scheduler
  batchRunningSteps : w.batchRunningSteps = ∅
  runningSteps : w.runningSteps = ∅
  stepResultQueue : w.stepResultQueue = []
  stopRequestingWork : w.stopRequestingWork = false
  runs : w.runs.map (fun run => (run.stepId, run.succeeded setting.code)) = done
  executes : Executes (setting.nextSteps world)
    (fun id => setting.Asked world roots id ∧ setting.Offers world id)
    (setting.There world) done
  listed : ∀ id, setting.Asked world roots id → id ∈ w.scheduledSteps
  card : ∀ id, setting.Asked world roots id →
    ∃ card, setting.board w id = some card ∧ setting.Shows world done id card
  blank : ∀ id, ¬setting.Asked world roots id → setting.board w id = none
  kept : ∀ id, id ∉ done.map Prod.fst →
    setting.code.complete id w.world = setting.code.complete id world
  made : ∀ id, (id, true) ∈ done → setting.There w.world id
  runSucceeded : w.runSucceeded = true ↔ ∀ entry ∈ done, entry.2 = true
  history : ∃ order : List StepId, (∀ id, id ∈ order ↔ setting.Asked world roots id) ∧
    order.head? = roots.head? ∧
    w.addStepHistory = order.map (setting.planNote world) ++ done.map reportNote
  responses : ∀ response ∈ w.getWorkResponseHistory, response.2 = []

variable {setting} {w w' : Session σ} {world : σ} {roots : List StepId} {id : StepId}
  {done : List (StepId × Bool)}

theorem deps_of_nextSteps {dep : StepId} (hdep : dep ∈ setting.nextSteps world id) :
    ∃ deps, setting.code.deps id world = .ok deps ∧ dep ∈ deps := by
  unfold nextSteps planOf at hdep
  split at hdep
  · exact absurd hdep List.not_mem_nil
  · split at hdep
    · exact absurd hdep List.not_mem_nil
    · split at hdep
      · exact absurd hdep List.not_mem_nil
      · next deps hdeps => exact ⟨deps, hdeps, hdep⟩
  · exact absurd hdep List.not_mem_nil

theorem Asked.next {dep : StepId} (h : setting.Asked world roots id)
    (hdep : dep ∈ setting.nextSteps world id) : setting.Asked world roots dep :=
  h.imp fun _ hroot => ⟨hroot.1, hroot.2.tail hdep⟩

theorem planOf_of_offers (hoffers : setting.Offers world id) :
    ∃ deps, setting.code.deps id world = .ok deps ∧
      setting.planOf world id = ⟨some deps, .pending, true⟩ := by
  obtain ⟨hincomplete, hexternal, deps, hdeps⟩ := hoffers
  refine ⟨deps, hdeps, ?_⟩
  rw [planOf, hincomplete]
  simp only [hexternal, Bool.false_eq_true, if_false, hdeps]

/-- The plans that can be carried out. -/
theorem offers_iff (hsimple : setting.Simple) :
    setting.Offers world id ↔ (setting.planOf world id).runnable = true := by
  constructor
  · intro hoffers
    obtain ⟨deps, -, hplan⟩ := planOf_of_offers hoffers
    rw [hplan]
  · intro hrunnable
    unfold planOf at hrunnable
    rw [hsimple.config] at hrunnable
    split at hrunnable
    · cases hrunnable
    · next hincomplete =>
        split at hrunnable
        · cases hrunnable
        · next hexternal =>
            split at hrunnable
            · cases hrunnable
            · next deps hdeps => exact ⟨hincomplete, eq_false_of_ne_true hexternal, deps, hdeps⟩
    · cases hrunnable

theorem there_iff : setting.There world id ↔ (setting.planOf world id).status = .done := by
  constructor
  · intro hthere
    rw [planOf, hthere]
  · intro hstatus
    unfold planOf at hstatus
    split at hstatus
    · assumption
    · repeat' split at hstatus
      all_goals cases hstatus
    · cases hstatus

theorem not_there_of_offers (hoffers : setting.Offers world id) : ¬setting.There world id := by
  intro hthere
  cases hthere.symm.trans hoffers.1

namespace Resting

/-- States in which nothing of this differs. -/
theorem congr (h : setting.Resting world roots done w) (hextends : w.Extends w')
    (hlone : Scheduler.Lone setting.worker w'.scheduler)
    (hboard : setting.board w' = setting.board w)
    (hhistory : w'.addStepHistory = w.addStepHistory)
    (hresponses : ∀ response ∈ w'.getWorkResponseHistory, response.2 = []) :
    setting.Resting world roots done w' where
  lone := hlone
  batchRunningSteps := hextends.batchRunningSteps.trans h.batchRunningSteps
  runningSteps := hextends.runningSteps.trans h.runningSteps
  stepResultQueue := hextends.stepResultQueue.trans h.stepResultQueue
  stopRequestingWork := hextends.stopRequestingWork.trans h.stopRequestingWork
  runs := by rw [hextends.runs, h.runs]
  executes := h.executes
  listed := fun id hid => hextends.scheduled id (h.listed id hid)
  card := by rw [hboard]; exact h.card
  blank := by rw [hboard]; exact h.blank
  kept := by rw [hextends.world]; exact h.kept
  made := by rw [hextends.world]; exact h.made
  runSucceeded := by rw [hextends.runSucceeded]; exact h.runSucceeded
  history := by rw [hhistory]; exact h.history
  responses := hresponses

/-- A step is not executed twice. -/
theorem not_both (h : setting.Resting world roots done w) (hsuccess : (id, true) ∈ done) :
    (id, false) ∉ done := by
  intro hfailure
  have hinjective := List.inj_on_of_nodup_map h.executes.nodup
  cases hinjective hsuccess hfailure rfl

/-- The dependencies that the scheduler knows to be done. -/
theorem done_iff (h : setting.Resting world roots done w)
    (hid : setting.Asked world roots id) :
    (setting.board w).Done id ↔ setting.There world id ∨ (id, true) ∈ done := by
  obtain ⟨card, hrow, hshows⟩ := h.card id hid
  have hstatus : (setting.board w).Done id ↔ card.status = .done := by
    constructor
    · rintro ⟨other, hother, hdone⟩
      rw [Option.some.inj (hrow.symm.trans hother)]
      exact hdone
    · exact fun hdone => ⟨card, hrow, hdone⟩
  rw [hstatus]
  by_cases hexecuted : id ∈ done.map Prod.fst
  · have hoffers := (h.executes.offered_of_mem hexecuted).2
    rw [or_iff_right (not_there_of_offers hoffers)]
    obtain ⟨⟨_, success⟩, hentry, rfl⟩ := List.mem_map.mp hexecuted
    cases success with
    | true => exact iff_of_true (hshows.success hentry) hentry
    | false =>
        refine iff_of_false (fun hdone => ?_) fun hsuccess => h.not_both hsuccess hentry
        cases hshows.failure hentry with
        | inl hfailed => cases hfailed.symm.trans hdone
        | inr hdisabled => cases hdisabled.symm.trans hdone
  · rw [hshows.untouched hexecuted, there_iff, or_iff_left]
    exact fun hsuccess => hexecuted (List.mem_map.mpr ⟨_, hsuccess, rfl⟩)

/-- The steps that the scheduler may hand out. -/
theorem ready_iff (hsimple : setting.Simple) (h : setting.Resting world roots done w) :
    (setting.board w).Ready id ↔ (setting.Asked world roots id ∧
      setting.Offers world id) ∧ id ∉ done.map Prod.fst ∧
        ∀ dep ∈ setting.nextSteps world id, setting.There world dep ∨ (dep, true) ∈ done := by
  by_cases hid : setting.Asked world roots id
  · obtain ⟨card, hrow, hshows⟩ := h.card id hid
    have hdeps : (∀ dep ∈ card.deps, (setting.board w).Done dep) ↔
        ∀ dep ∈ setting.nextSteps world id, setting.There world dep ∨ (dep, true) ∈ done := by
      rw [hshows.deps]
      refine forall_congr' fun dep => ?_
      rw [List.mem_toFinset]
      exact forall_congr' fun hdep => h.done_iff (hid.next hdep)
    have hready : (setting.board w).Ready id ↔ card.status = .pending ∧ card.mine = true ∧
        ∀ dep ∈ card.deps, (setting.board w).Done dep := by
      constructor
      · rintro ⟨other, hother, hrest⟩
        rw [Option.some.inj (hrow.symm.trans hother)]
        exact hrest
      · exact fun hrest => ⟨card, hrow, hrest⟩
    rw [hready, hdeps, hshows.mine, ← offers_iff hsimple]
    constructor
    · rintro ⟨hpending, hoffers, hrest⟩
      refine ⟨⟨hid, hoffers⟩, fun hexecuted => ?_, hrest⟩
      obtain ⟨⟨_, success⟩, hentry, rfl⟩ := List.mem_map.mp hexecuted
      cases success with
      | true => cases (hshows.success hentry).symm.trans hpending
      | false =>
          cases hshows.failure hentry with
          | inl hfailed => cases hfailed.symm.trans hpending
          | inr hdisabled => cases hdisabled.symm.trans hpending
    · rintro ⟨⟨-, hoffers⟩, hnew, hrest⟩
      obtain ⟨deps, -, hplan⟩ := planOf_of_offers hoffers
      refine ⟨?_, hoffers, hrest⟩
      rw [hshows.untouched hnew, hplan]
  · constructor
    · rintro ⟨card, hrow, -⟩
      cases (h.blank id hid).symm.trans hrow
    · exact fun hready => absurd hready.1.1 hid

/-- No card says that a step runs. -/
theorem idle (h : setting.Resting world roots done w) {card : Card}
    (hrow : setting.board w id = some card) : card.status ≠ .running := by
  by_cases hid : setting.Asked world roots id
  · obtain ⟨other, hother, hshows⟩ := h.card id hid
    obtain rfl := Option.some.inj (hrow.symm.trans hother)
    intro hrunning
    by_cases hexecuted : id ∈ done.map Prod.fst
    · obtain ⟨⟨_, success⟩, hentry, rfl⟩ := List.mem_map.mp hexecuted
      cases success with
      | true => cases (hshows.success hentry).symm.trans hrunning
      | false =>
          cases hshows.failure hentry with
          | inl hfailed => cases hfailed.symm.trans hrunning
          | inr hdisabled => cases hdisabled.symm.trans hrunning
    · have hstatus := (hshows.untouched hexecuted).symm.trans hrunning
      unfold planOf at hstatus
      repeat' split at hstatus
      all_goals cases hstatus
  · cases (h.blank id hid).symm.trans hrow

end Resting

/-! ## One round -/

/-- The worker asks for work and gets a step that is ready, if there is one. -/
theorem getWork_spec (hsimple : setting.Simple)
    (hlone : Scheduler.Lone setting.worker w.scheduler) (hgoing : w.stopRequestingWork = false)
    (hidle : ∀ id card, setting.board w id = some card → card.status ≠ .running)
    (hlisted : ∀ id, (setting.board w).Ready id → id ∈ w.scheduledSteps) :
    ∃ response w', setting.getWork.exec w = (.ok response, w') ∧ w.Extends w' ∧
      Scheduler.Lone setting.worker w'.scheduler ∧ response.workerState = .active ∧
      w'.addStepHistory = w.addStepHistory ∧
      (∃ handed, w'.getWorkResponseHistory = w.getWorkResponseHistory ++ [(handed, [])]) ∧
      ((response.stepId = none ∧ (∀ id, ¬(setting.board w).Ready id) ∧
          setting.board w' = setting.board w) ∨
        ∃ id, response.stepId = some id ∧ (setting.board w).Ready id ∧
          setting.board w' = (setting.board w).start id) := by
  set args : GetWorkArgs := { worker := setting.worker, assistant := setting.assistant
                              currentSteps := some w.runningSteps.elems } with hargs
  obtain ⟨pending, work, houtcome, hstate, hrunning, hlone', hwork⟩ := hlone.getWork setting.env
    (setting.clock w.requests.length) hsimple.unpruned (rfl : args.worker = setting.worker)
    hsimple.assistant hidle
  have hask := exec_ask houtcome
  have hget : setting.getWork.exec w =
      (setting.takeWork ⟨pending, work⟩).exec (setting.asked w (.getWork args)) := by
    unfold getWork
    rw [exec_get_bind, hgoing, if_neg Bool.false_ne_true, exec_bind_ok hask]
  have hextends := setting.extends_asked w (.getWork args)
  rcases hwork with ⟨rfl, hnone, hboard⟩ | ⟨id, family, module, params, rfl, hready, hboard⟩
  · refine ⟨_, _, hget.trans rfl, hextends.trans ?_, hlone', hstate, rfl,
      ⟨none, by rw [← hrunning]; rfl⟩, .inl ⟨rfl, hnone, hboard⟩⟩
    exact ⟨rfl, rfl, rfl, rfl, rfl, rfl, rfl, rfl, fun _ h => h⟩
  · set handed : Session σ :=
      { setting.asked w (.getWork args) with
        getWorkResponseHistory := (setting.asked w (.getWork args)).getWorkResponseHistory ++
          [(some id, pending.runningSteps)] } with hhanded
    have hload : (setting.loadStep (.single id family module params) id).exec handed =
        (.ok (some id), handed) := by
      have hmem : id ∈ handed.scheduledSteps := hlisted id hready
      unfold loadStep
      rw [exec_get_bind, if_pos hmem]
      rfl
    have htake : (setting.takeWork ⟨pending, .single id family module params⟩).exec
        (setting.asked w (.getWork args)) = (.ok
          { stepId := some id
            runningSteps := pending.runningSteps
            nPendingSteps := pending.nPendingSteps
            nUniquePending := pending.nUniquePending
            nPendingLastScheduled := pending.nPendingLastScheduled
            workerState := pending.workerState }, handed) := by
      unfold takeWork
      exact exec_bind_ok (exec_pure ..) |>.trans ((exec_modify_bind ..).trans (exec_bind_ok hload))
    refine ⟨_, handed, hget.trans htake, hextends.trans ?_, hlone', hstate, rfl,
      ⟨some id, by rw [← hrunning]; rfl⟩, .inr ⟨id, rfl, hready, hboard⟩⟩
    exact ⟨rfl, rfl, rfl, rfl, rfl, rfl, rfl, rfl, fun _ h => h⟩

/-- The only result on the queue is passed on. -/
theorem handleNextStep_spec (hsimple : setting.Simple)
    (hlone : Scheduler.Lone setting.worker w.scheduler) (hbatch : w.batchRunningSteps = ∅)
    {result : StepResult} (hqueue : w.stepResultQueue = [result])
    (hrunning : w.runningSteps.elems = [result.stepId]) (hlisted : result.stepId ∈ w.scheduledSteps)
    (hstatus : result.status = .done ∨ result.status = .failed) (hdeps : result.newDeps = [])
    (hmissing : result.missing = []) {card : Card}
    (hrow : setting.board w result.stepId = some { card with status := .running }) :
    ∃ w' status, (∀ fuel, (setting.handleNextStep fuel).exec w = (.ok (), w')) ∧
      Scheduler.Lone setting.worker w'.scheduler ∧ w'.batchRunningSteps = ∅ ∧
      w'.runningSteps = ∅ ∧ w'.stepResultQueue = [] ∧
      w'.stopRequestingWork = w.stopRequestingWork ∧ w'.world = w.world ∧ w'.runs = w.runs ∧
      (∀ id ∈ w.scheduledSteps, id ∈ w'.scheduledSteps) ∧
      w.Notes w' [(result.stepId, result.status, none)] ∧
      (w'.runSucceeded = true ↔ w.runSucceeded = true ∧ result.status = .done) ∧
      (status = result.status ∨ result.status = .failed ∧ status = .disabled) ∧
      setting.board w' = (setting.board w).place result.stepId { card with status := status } := by
  set args : AddStepArgs := { setting.reportArgs result [] with runnable := false } with hargs
  set taken : Session σ := { w with idleSince := none, stepResultQueue := [] } with htaken
  have hplain : args.Plain setting.worker := by
    constructor
    · rfl
    · exact hsimple.assistant
    · rfl
    · exact fun h => by cases h
    · exact hsimple.resources result.stepId
    · cases hstatus with
      | inl h => exact .inr (.inl h)
      | inr h => exact .inr (.inr (.inl h))
  have hnotPending : args.status ≠ .pending := by
    change result.status ≠ .pending
    cases hstatus with
    | inl h => rw [h]; exact Status.noConfusion
    | inr h => rw [h]; exact Status.noConfusion
  have hstarted : args.startedARun = true := by
    have hargsStatus : args.status = result.status := rfl
    rw [AddStepArgs.startedARun, hargsStatus]
    cases hstatus with
    | inl h => rw [h]
    | inr h => rw [h]
  have hlone : Scheduler.Lone setting.worker taken.scheduler := hlone
  have hrunnable : args.runnable = (none : Option Bool).getD false := rfl
  have hrow' : setting.board taken args.stepId = some { card with status := .running } := hrow
  have hself : args.stepId ∈ taken.scheduledSteps := hlisted
  obtain ⟨reported, status, hreport, hextends, hlone', hresult, hboard, hnotes⟩ :=
    addStep_spec hlone hbatch hself hrunnable hplain (by
      rw [hrow', Option.getD_some]
      exact ⟨Status.noConfusion, fun _ => hnotPending, fun _ => .inl hstarted⟩)
  set w' : Session σ :=
    { reported with
      runningSteps := reported.runningSteps.removeAll [result.stepId]
      runSucceeded := reported.runSucceeded && (result.status == .done || false) } with hw'
  refine ⟨w', status, fun fuel => ?_, hlone', hextends.batchRunningSteps.trans hbatch, ?_,
    hextends.stepResultQueue, hextends.stopRequestingWork, hextends.world, hextends.runs,
    hextends.scheduled, ⟨hnotes.history, hnotes.responses⟩, ?_, hresult, ?_⟩
  · have hnext : (setting.handleNextStep fuel).exec w =
        (setting.handleResult fuel result).exec taken := by
      have hmem : result.stepId ∈ w.runningSteps := by
        rw [OrderedSet.mem_def, hrunning]
        exact List.mem_singleton_self _
      unfold handleNextStep
      rw [exec_modify_bind, exec_get_bind]
      dsimp only
      rw [hqueue, handleQueue, exec_get_bind, exec_modify_bind, if_neg (not_not_intro hlisted),
        if_pos hmem]
    have hreport : (setting.addStep (setting.reportArgs result []) none).exec taken =
        (.ok (), reported) := hreport
    rw [hnext]
    unfold handleResult
    rw [hdeps, hmissing]
    exact exec_bind_ok hreport
  · have helems : reported.runningSteps.elems = [result.stepId] := by
      rw [hextends.runningSteps]
      exact hrunning
    change reported.runningSteps.removeAll [result.stepId] = ∅
    have hnone : reported.runningSteps.elems.filter (fun id => id ∉ [result.stepId]) = [] := by
      rw [helems]
      simp
    simp only [OrderedSet.removeAll, hnone]
    rfl
  · have hbefore : reported.runSucceeded = w.runSucceeded := hextends.runSucceeded
    simp [hw', hbefore]
  · have hcards : args.cardOn { card with status := .running } status =
        { card with status := status } := by
      have hmine : (args.runnable && args.status != .failed) = false := rfl
      simp only [AddStepArgs.cardOn, AddStepArgs.depsOn, hmine, Bool.false_or]
      simp [hargs, reportArgs]
    change setting.board reported = _
    rw [hboard, hrow', Option.getD_some, hcards]
    rfl

/-- The board after the scheduler started a step and heard how its run ended. -/
theorem place_start {board : Board} {card : Card} {status : Status}
    (hknown : ∀ dep ∈ card.deps, board dep ≠ none) (other : StepId) :
    ((board.start id).place id { card with status := status }) other =
      if other = id then some { card with status := status } else board other := by
  by_cases hother : other = id
  · rw [hother, Board.place_self, if_pos rfl]
  · rw [Board.place_other hother, Board.start_other hother, if_neg hother, if_neg]
    exact fun hunknown => hknown other hunknown.2 hunknown.1

section Snoc

variable {success result : Bool} {other : StepId}

theorem mem_snoc_self (hnew : id ∉ done.map Prod.fst) :
    (id, result) ∈ done ++ [(id, success)] ↔ result = success := by
  rw [List.mem_append, List.mem_singleton, or_iff_right]
  · exact Prod.mk_right_inj
  · exact fun hbefore => hnew (List.mem_map.mpr ⟨_, hbefore, rfl⟩)

theorem mem_snoc_other (hother : other ≠ id) :
    (other, result) ∈ done ++ [(id, success)] ↔ (other, result) ∈ done := by
  rw [List.mem_append, List.mem_singleton, or_iff_left]
  exact fun hlast => hother (congrArg Prod.fst hlast)

theorem mem_map_snoc : other ∈ (done ++ [(id, success)]).map Prod.fst ↔
    other ∈ done.map Prod.fst ∨ other = id := by
  rw [List.map_append, List.mem_append]
  exact or_congr_right List.mem_singleton

/-- The card of the step that was executed last. -/
theorem Shows.executed {card : Card} {status : Status} (hshows : setting.Shows world done id card)
    (hnew : id ∉ done.map Prod.fst) (hdone : success = true → status = .done)
    (hfailed : success = false → status = .failed ∨ status = .disabled) :
    setting.Shows world (done ++ [(id, success)]) id { card with status := status } where
  deps := hshows.deps
  mine := hshows.mine
  untouched := fun h => absurd (mem_map_snoc.mpr (.inr rfl)) h
  success := fun h => hdone ((mem_snoc_self hnew).mp h).symm
  failure := fun h => hfailed ((mem_snoc_self hnew).mp h).symm

theorem Shows.unchanged {card : Card} (hshows : setting.Shows world done other card)
    (hother : other ≠ id) : setting.Shows world (done ++ [(id, success)]) other card where
  deps := hshows.deps
  mine := hshows.mine
  untouched := fun h => hshows.untouched fun hmem => h (mem_map_snoc.mpr (.inl hmem))
  success := fun h => hshows.success ((mem_snoc_other hother).mp h)
  failure := fun h => hshows.failure ((mem_snoc_other hother).mp h)

end Snoc

/-- What was complete from the start or was executed with success is complete. -/
theorem Resting.there (h : setting.Resting world roots done w)
    (hdone : setting.There world id ∨ (id, true) ∈ done) : setting.There w.world id := by
  by_cases hexecuted : (id, true) ∈ done
  · exact h.made id hexecuted
  · have hthere := hdone.resolve_right hexecuted
    rw [There, h.kept id, hthere]
    intro hmem
    exact not_there_of_offers (h.executes.offered_of_mem hmem).2 hthere

/-- The process of a step that the scheduler has started, which is all that runs. -/
theorem Resting.runStep (hsimple : setting.Simple) (hsteady : setting.code.Steady)
    (h : setting.Resting world roots done w) (hextends : w.Extends w')
    (hready : (setting.board w).Ready id) :
    ∃ (ran : Session σ) (run : Run σ) (result : StepResult),
      (setting.runStep id).exec w' = (.ok (), ran) ∧
      ran.scheduler = w'.scheduler ∧ ran.batchRunningSteps = ∅ ∧ ran.runningSteps.elems = [id] ∧
      ran.stepResultQueue = [result] ∧ ran.stopRequestingWork = w.stopRequestingWork ∧
      ran.runs = w.runs ++ [run] ∧ ran.scheduledSteps = w'.scheduledSteps ∧
      ran.runSucceeded = w.runSucceeded ∧ ran.addStepHistory = w'.addStepHistory ∧
      ran.getWorkResponseHistory = w'.getWorkResponseHistory ∧
      run.stepId = id ∧ result.stepId = id ∧ result.newDeps = [] ∧ result.missing = [] ∧
      result.status = (if run.succeeded setting.code then .done else .failed) ∧
      (run.succeeded setting.code = true → setting.There ran.world id) ∧
      ∀ other, other ≠ id →
        setting.code.complete other ran.world = setting.code.complete other w.world := by
  obtain ⟨⟨hid, hoffers⟩, hnew, hneeds⟩ := (h.ready_iff hsimple).mp hready
  obtain ⟨deps, hdeps, hplan⟩ := planOf_of_offers hoffers
  have hnext : setting.nextSteps world id = deps := by rw [nextSteps, hplan]; rfl
  have hcomplete : ∀ dep ∈ deps, setting.code.complete dep w'.world = .answers true := by
    intro dep hdep
    rw [hextends.world]
    exact h.there (hneeds dep (hnext ▸ hdep))
  have hincomplete : setting.code.complete id w'.world = .answers false := by
    rw [hextends.world, h.kept id hnew, hoffers.1]
  obtain ⟨world', run, result, hprocess, hrunId, hresultId, hnewDeps, hmissing, hstatus, hmade,
    hothers⟩ := hsteady.process hoffers.2.1 hincomplete
      ((hsteady.deps id w'.world world).trans hdeps) hcomplete w'.completionCache
  have hidle : w'.runningSteps = ∅ := hextends.runningSteps.trans h.runningSteps
  have hempty : w'.stepResultQueue = [] := hextends.stepResultQueue.trans h.stepResultQueue
  have hlisted : id ∈ w'.scheduledSteps := hextends.scheduled id (h.listed id hid)
  set ran : Session σ :=
    { w' with
      world := world'
      runs := w'.runs ++ [run]
      runningSteps := w'.runningSteps.add id
      stepResultQueue := w'.stepResultQueue ++ [result] } with hran
  have hrun : (setting.runStep id).exec w' = (.ok (), ran) := by
    have hnot : id ∉ w'.runningSteps := by
      rw [hidle]
      exact OrderedSet.not_mem_empty id
    unfold Setting.runStep
    rw [exec_get_bind, if_neg hnot, if_pos hlisted, hsimple.config, hprocess]
    rfl
  refine ⟨ran, run, result, hrun, rfl, hextends.batchRunningSteps.trans h.batchRunningSteps,
    by rw [hran, hidle]; rfl, by rw [hran, hempty]; rfl, hextends.stopRequestingWork,
    by rw [hran, hextends.runs], rfl, hextends.runSucceeded, rfl, rfl, hrunId, hresultId, hnewDeps,
    hmissing, hstatus, hmade, fun other hother => ?_⟩
  rw [hothers other hother, hextends.world]

/-- The worker executes a step that the scheduler has started. -/
theorem Resting.execute (hsimple : setting.Simple) (hsteady : setting.code.Steady)
    (h : setting.Resting world roots done w) (hextends : w.Extends w')
    (hlone : Scheduler.Lone setting.worker w'.scheduler)
    (hhistory : w'.addStepHistory = w.addStepHistory)
    (hresponses : ∀ response ∈ w'.getWorkResponseHistory, response.2 = [])
    (hready : (setting.board w).Ready id)
    (hboard : setting.board w' = (setting.board w).start id) :
    ∃ success ran last, (setting.runStep id).exec w' = (.ok (), ran) ∧ ran.runningSteps.size = 1 ∧
      (∀ fuel, (setting.handleNextStep fuel).exec ran = (.ok (), last)) ∧
      setting.Resting world roots (done ++ [(id, success)]) last := by
  obtain ⟨⟨hid, hoffers⟩, hnew, hneeds⟩ := (h.ready_iff hsimple).mp hready
  obtain ⟨card, hrow, hshows⟩ := h.card id hid
  obtain ⟨ran, run, result, hrun, hscheduler, hbatch, helems, hqueue, hstop, hruns, hscheduled,
    hsucceeded, hranHistory, hranResponses, hrunId, rfl, hnewDeps, hmissing, hstatus, hmade,
    hothers⟩ := h.runStep hsimple hsteady hextends hready
  set success := run.succeeded setting.code with hsuccess
  have hlone : Scheduler.Lone setting.worker ran.scheduler := hscheduler ▸ hlone
  have hboard : setting.board ran = (setting.board w).start result.stepId := by
    rw [← hboard, board, board, hscheduler]
  have hstarted : setting.board ran result.stepId = some { card with status := .running } := by
    rw [hboard, Board.start_self, hrow, Option.map_some]
  have hlisted : ∀ other, setting.Asked world roots other → other ∈ ran.scheduledSteps := by
    intro other hother
    rw [hscheduled]
    exact hextends.scheduled other (h.listed other hother)
  have hends : result.status = .done ∨ result.status = .failed := by
    rw [hstatus]
    split
    · exact .inl rfl
    · exact .inr rfl
  obtain ⟨last, status, hhandle, hlone', hbatches, hrunning, hempty, hgoing, hworld, hlastRuns,
    hkept, hnotes, hlastSucceeded, hreported, hplaced⟩ :=
    handleNextStep_spec hsimple hlone hbatch hqueue helems (hlisted _ hid) hends hnewDeps hmissing
      hstarted
  have hknown : ∀ dep ∈ card.deps, setting.board w dep ≠ none := by
    intro dep hdep hnone
    rw [hshows.deps, List.mem_toFinset] at hdep
    obtain ⟨found, hfound, -⟩ := h.card dep (hid.next hdep)
    cases hnone.symm.trans hfound
  have hrow' : ∀ other, setting.board last other =
      if other = result.stepId then some { card with status := status }
      else setting.board w other := by
    rw [hplaced, hboard]
    exact place_start hknown
  have hdone : success = true → status = .done := by
    intro h
    rw [h, if_pos rfl] at hstatus
    cases hreported with
    | inl heq => exact heq.trans hstatus
    | inr hfailed => cases hfailed.1.symm.trans hstatus
  have hfailed : success = false → status = .failed ∨ status = .disabled := by
    intro h
    rw [h, if_neg Bool.false_ne_true] at hstatus
    exact hreported.imp (fun heq => heq.trans hstatus) And.right
  refine ⟨success, ran, last, hrun, congrArg List.length helems, hhandle, ?_⟩
  constructor
  · exact hlone'
  · exact hbatches
  · exact hrunning
  · exact hempty
  · exact hgoing.trans (hstop.trans h.stopRequestingWork)
  · rw [hlastRuns, hruns, List.map_append, h.runs, List.map_singleton, hrunId]
  · exact h.executes.snoc hnew ⟨hid, hoffers⟩ hneeds
  · exact fun other hother => hkept other (hlisted other hother)
  · intro other hother
    rw [hrow']
    split
    · next hsame =>
        subst hsame
        exact ⟨_, rfl, hshows.executed hnew hdone hfailed⟩
    · next hdiffers =>
        obtain ⟨found, hfound, hholds⟩ := h.card other hother
        exact ⟨found, hfound, hholds.unchanged hdiffers⟩
  · intro other hother
    rw [hrow', if_neg]
    · exact h.blank other hother
    · rintro rfl
      exact hother hid
  · intro other hother
    rw [mem_map_snoc, not_or] at hother
    rw [hworld, hothers other hother.2]
    exact h.kept other hother.1
  · intro other hmem
    rw [hworld]
    by_cases hsame : other = result.stepId
    · subst hsame
      exact hmade ((mem_snoc_self hnew).mp hmem).symm
    · rw [There, hothers other hsame]
      exact h.made other ((mem_snoc_other hsame).mp hmem)
  · have hlast : result.status = .done ↔ success = true := by
      rw [hstatus]
      cases success <;> simp
    rw [hlastSucceeded, hsucceeded, h.runSucceeded, hlast]
    simp only [List.mem_append, List.mem_singleton, or_imp, forall_and, forall_eq]
  · obtain ⟨order, hmem, hhead, hnoted⟩ := h.history
    refine ⟨order, hmem, hhead, ?_⟩
    rw [hnotes.history, hranHistory, hhistory, hnoted, List.map_append, List.append_assoc, hstatus]
    rfl
  · rw [hnotes.responses, hranResponses]
    exact hresponses

/-! ## The loop -/

/-- The main loop executes steps that are ready until there is none. -/
theorem Resting.mainLoop (hsimple : setting.Simple) (hsteady : setting.code.Steady)
    {nodes : Finset StepId} (hnodes : ∀ id, setting.Asked world roots id → id ∈ nodes)
    (h : setting.Resting world roots done w) :
    ∃ executed last, Settles (fun fuel => setting.mainLoop fuel) w () last ∧
      setting.Resting world roots executed last ∧
      Executes.Exhausted (setting.nextSteps world)
        (fun id => setting.Asked world roots id ∧ setting.Offers world id)
        (setting.There world) executed := by
  -- no step is executed twice, so there are no more rounds than steps
  induction hroom : nodes.card - done.length using Nat.strong_induction_on generalizing w done with
  | _ room ih =>
      obtain ⟨response, w', hget, hextends, hlone, hstate, hhistory, ⟨handed, hresponse⟩, hwork⟩ :=
        getWork_spec hsimple h.lone
        h.stopRequestingWork (fun _ _ hrow => h.idle hrow)
        fun id hready => h.listed id ((h.ready_iff hsimple).mp hready).1.1
      have hidle : ¬1 ≤ w.runningSteps.size := by
        rw [h.runningSteps]
        exact Nat.not_succ_le_zero 0
      have hresponses : ∀ response ∈ w'.getWorkResponseHistory, response.2 = [] := by
        intro response hmem
        rw [hresponse, List.mem_append, List.mem_singleton] at hmem
        cases hmem with
        | inl hbefore => exact h.responses response hbefore
        | inr hlast => rw [hlast]
      have hactive : ¬response.workerState = .disabled := by
        rw [hstate]
        exact WorkerState.noConfusion
      rcases hwork with ⟨hnone, hready, hboard⟩ | ⟨id, hsome, hready, hboard⟩
      · set last : Session σ :=
          { w' with
            idleSince := w'.idleSince <|> some (setting.clock w'.requests.length).now } with hlast
        have hsame : w'.Extends last := ⟨rfl, rfl, rfl, rfl, rfl, rfl, rfl, rfl, fun _ h => h⟩
        refine ⟨done, last, ⟨1, fun fuel hfuel => ?_⟩,
          h.congr (hextends.trans hsame) hlone hboard hhistory hresponses, fun id hid hneeds => ?_⟩
        · obtain ⟨fuel, rfl⟩ := Nat.exists_eq_add_of_le' hfuel
          have hkeep : ∀ w now, setting.keepAlive w now response = false := by
            intro w now
            rw [keepAlive, hsimple.config]
            rfl
          unfold Setting.mainLoop
          rw [exec_get_bind, if_neg hidle, exec_bind_ok hget, if_neg hactive, hnone]
          change (if setting.keepAlive last _ response = true then setting.mainLoop fuel
            else pure () : WorkerM σ Unit).exec last = _
          rw [hkeep, if_neg Bool.false_ne_true]
          rfl
        · by_contra hnew
          exact hready id ((h.ready_iff hsimple).mpr ⟨hid, hnew, hneeds⟩)
      · obtain ⟨success, ran, rested, hrun, hsize, hhandle, hrested⟩ :=
          h.execute hsimple hsteady hextends hlone hhistory hresponses hready hboard
        have hlength := hrested.executes.length_le fun id hid => hnodes id hid.1
        rw [List.length_append, List.length_singleton] at hlength
        obtain ⟨executed, last, hsettles, hrest⟩ :=
          ih (nodes.card - (done ++ [(id, success)]).length)
            (by rw [List.length_append, List.length_singleton]; omega) hrested rfl
        have hstarts : ∀ fuel, (setting.mainLoop (fuel + 1)).exec w =
            (setting.mainLoop fuel).exec ran := by
          intro fuel
          rw [Setting.mainLoop, exec_get_bind, if_neg hidle, exec_bind_ok hget, if_neg hactive,
            hsome]
          exact exec_bind_ok hrun
        have hhandles : ∀ fuel, (setting.mainLoop (fuel + 1)).exec ran =
            (setting.mainLoop fuel).exec rested := by
          intro fuel
          have hbusy : 1 ≤ ran.runningSteps.size := hsize.ge
          rw [Setting.mainLoop, exec_get_bind, if_pos hbusy]
          exact exec_bind_ok (hhandle fuel)
        exact ⟨executed, last, .round hstarts (.round hhandles hsettles), hrest⟩

/-- After `add` has put its cards on the board nothing has been executed. -/
theorem resting_of_added {resources : Resources}
    (hextends : (Session.start (.initial resources) world).Extends w)
    (hlone : Scheduler.Lone setting.worker w.scheduler)
    (hplans : ∀ id, setting.Asked world roots id → id ∈ w.scheduledSteps ∧
      setting.board w id = some ((setting.planOf world id).card none))
    (hblank : ∀ id, ¬setting.Asked world roots id → setting.board w id = none)
    {order : List StepId} (horder : ∀ id, id ∈ order ↔ setting.Asked world roots id)
    (hhead : order.head? = roots.head?)
    (hnotes : (Session.start (.initial resources) world).Notes w
      (order.map (setting.planNote world))) :
    setting.Resting world roots [] w where
  lone := hlone
  batchRunningSteps := hextends.batchRunningSteps
  runningSteps := hextends.runningSteps
  stepResultQueue := hextends.stepResultQueue
  stopRequestingWork := hextends.stopRequestingWork
  runs := by
    rw [hextends.runs]
    rfl
  executes := .nil
  listed := fun id hid => (hplans id hid).1
  card := by
    intro id hid
    refine ⟨_, (hplans id hid).2, ?_, ?_, fun _ => rfl, fun h => absurd h List.not_mem_nil,
      fun h => absurd h List.not_mem_nil⟩
    · apply Finset.ext
      intro dep
      rw [mem_deps_card, List.mem_toFinset]
    · exact Bool.or_false _
  blank := hblank
  kept := fun id _ => by rw [hextends.world]; rfl
  made := fun id h => absurd h List.not_mem_nil
  runSucceeded := iff_of_true hextends.runSucceeded fun entry h => absurd h List.not_mem_nil
  history := ⟨order, horder, hhead, hnotes.history.trans (List.append_nil _).symm⟩
  responses := by
    rw [hnotes.responses]
    exact fun response h => absurd h List.not_mem_nil

/-- `run` comes to an end, with nothing left to execute. -/
theorem Resting.run (hsimple : setting.Simple) (hsteady : setting.code.Steady)
    {nodes : Finset StepId} (hnodes : ∀ id, setting.Asked world roots id → id ∈ nodes)
    (h : setting.Resting world roots [] w) :
    ∃ executed last, Settles (fun fuel => setting.run fuel) w last.runSucceeded last ∧
      setting.Resting world roots executed last ∧
      Executes.Exhausted (setting.nextSteps world)
        (fun id => setting.Asked world roots id ∧ setting.Offers world id)
        (setting.There world) executed := by
  set first : Session σ := { w with runSucceeded := true } with hfirst
  have hsucceeded : w.runSucceeded = true :=
    h.runSucceeded.mpr fun entry hentry => absurd hentry List.not_mem_nil
  have hsame : w.Extends first := ⟨rfl, rfl, rfl, hsucceeded.symm, rfl, rfl, rfl, rfl, fun _ h => h⟩
  obtain ⟨houtcome, hlone, hboard⟩ := h.lone.addWorker setting.env
    (setting.clock first.requests.length) setting.worker { workers := some 1 }
  have hasked := hsame.trans (setting.extends_asked first
    (.addWorker setting.worker { workers := some 1 }))
  obtain ⟨executed, last, ⟨bound, hloop⟩, hrested, hexhausted⟩ :=
    (h.congr hasked hlone hboard rfl h.responses).mainLoop hsimple hsteady hnodes
  refine ⟨executed, last, ⟨bound + 1, fun fuel hfuel => ?_⟩, hrested, hexhausted⟩
  have hshutDown : (setting.shutDown fuel).exec last = (.ok (), last) := by
    obtain ⟨fuel, rfl⟩ := Nat.exists_eq_add_of_le' (Nat.le_of_add_left_le hfuel)
    have hsize : last.runningSteps.size = 0 := by
      rw [hrested.runningSteps]
      rfl
    rw [shutDown, exec_get_bind, if_pos hsize]
    rfl
  have hask : (setting.ask (.addWorker setting.worker { workers := some 1 })).exec first =
      (.ok .nothing, setting.asked first (.addWorker setting.worker { workers := some 1 })) :=
    exec_ask houtcome
  unfold Setting.run
  rw [exec_modify_bind]
  refine (exec_bind_ok hask).trans ?_
  refine (exec_bind_ok (hloop fuel (Nat.le_of_succ_le hfuel))).trans ?_
  exact (exec_bind_ok hshutDown).trans rfl

/-! ## Several steps -/

/-- The loop of `_schedule_and_run` over the steps that it was given. -/
def addAll (setting : Setting σ) (fuel : ℕ) : List StepId → Bool → WorkerM σ Bool
  | [], success => pure success
  | id :: rest, success => do
      let answer ← setting.add fuel id
      addAll setting fuel rest (success && answer)

/-- `_schedule_and_run`, once it has a scheduler and a worker. -/
def scheduleAndRun (setting : Setting σ) (fuel : ℕ) (steps : List StepId) : WorkerM σ Bool := do
  let success ← setting.addAll fuel steps true
  let answer ← setting.run fuel
  return success && answer

/-- One step after another is added. -/
theorem addAll_plans (hsimple : setting.Simple) (before : StepId → Prop) (steps : List StepId)
    (success : Bool) (hfinite : Set.Finite {id | setting.Asked w.world steps id})
    (hlone : Scheduler.Lone setting.worker w.scheduler) (hbatch : w.batchRunningSteps = ∅)
    (hbefore : ∀ id, before id → id ∈ w.scheduledSteps ∧
      setting.board w id = some ((setting.planOf w.world id).card none))
    (hblank : ∀ id, ¬before id → setting.board w id = none) :
    ∃ answer w', Settles (fun fuel => setting.addAll fuel steps success) w answer w' ∧
      w.Extends w' ∧ Scheduler.Lone setting.worker w'.scheduler ∧
      (answer = true ↔ success = true ∧ ∀ id, setting.Asked w.world steps id →
        ¬setting.Fails w.world id) ∧
      (∀ id, before id ∨ setting.Asked w.world steps id → id ∈ w'.scheduledSteps ∧
        setting.board w' id = some ((setting.planOf w.world id).card none)) ∧
      (∀ id, ¬(before id ∨ setting.Asked w.world steps id) → setting.board w' id = none) ∧
      ∃ order : List StepId, w.Notes w' (order.map (setting.planNote w.world)) ∧
        order.head? = steps.head? ∧ ∀ id, id ∈ order ↔ setting.Asked w.world steps id := by
  induction steps generalizing w before success with
  | nil =>
      have hnone : ∀ id, ¬setting.Asked w.world [] id := fun id h =>
        List.not_mem_nil h.choose_spec.1
      refine ⟨success, w, .of_exec rfl, .refl w, hlone, ?_, fun id hid => ?_, fun id hid => ?_, [],
        .of_same rfl rfl, rfl, fun id => ?_⟩
      · exact (and_iff_left fun id hid => absurd hid (hnone id)).symm
      · exact hbefore id (hid.resolve_right (hnone id))
      · exact hblank id fun h => hid (.inl h)
      · exact iff_of_false List.not_mem_nil (hnone id)
  | cons root rest ih =>
      have hcons : ∀ id, setting.Asked w.world (root :: rest) id ↔
          Leads (setting.nextSteps w.world) root id ∨ setting.Asked w.world rest id := by
        intro id
        simp only [Asked, List.mem_cons, exists_eq_or_imp]
      obtain ⟨answer, added, hadd, hextends, hlone, hanswer, hplans, hblank, order, hnotes, hhead,
        horder⟩ :=
        add_plans hsimple root (hfinite.subset fun id hid => (hcons id).mpr (.inl hid)) hlone hbatch
          hbefore hblank
      rw [← hextends.world] at hplans hblank hcons hfinite hanswer hnotes horder ⊢
      obtain ⟨answers, last, hrest, hextends', hlone, hanswers, hplans, hblank, orders, hnotes', -,
        horders⟩ :=
        ih _ (success && answer) (hfinite.subset fun id hid => (hcons id).mpr (.inr hid)) hlone
          (hextends.batchRunningSteps.trans hbatch) hplans hblank
      refine ⟨answers, last, hadd.bind hrest, hextends.trans hextends', hlone, ?_, fun id hid => ?_,
        fun id hid => ?_, order ++ orders, ?_, ?_, fun id => ?_⟩
      · rw [hanswers, Bool.and_eq_true, hanswer, and_assoc]
        simp only [hcons, or_imp, forall_and]
      · rw [hcons, ← or_assoc] at hid
        exact hplans id hid
      · rw [hcons, ← or_assoc] at hid
        exact hblank id hid
      · rw [List.map_append]
        exact hnotes.trans hnotes'
      · rw [List.head?_append, hhead]
        rfl
      · rw [List.mem_append, horder, horders, hcons]

/-- `_schedule_and_run` with a new scheduler comes to an end, with nothing left to execute. -/
theorem scheduleAndRun_rests (hsimple : setting.Simple) (hsteady : setting.code.Steady)
    (resources : Resources) (world : σ) (steps : List StepId)
    (hfinite : Set.Finite {id | setting.Asked world steps id}) :
    ∃ answer executed last, Settles (fun fuel => setting.scheduleAndRun fuel steps)
        (.start (.initial resources) world) answer last ∧
      setting.Resting world steps executed last ∧
      Executes.Exhausted (setting.nextSteps world)
        (fun id => setting.Asked world steps id ∧ setting.Offers world id)
        (setting.There world) executed ∧
      (answer = true ↔ (∀ id, setting.Asked world steps id → ¬setting.Fails world id) ∧
        ∀ entry ∈ executed, entry.2 = true) := by
  have hlone := Scheduler.initial_lone setting.worker resources
  obtain ⟨success, added, hadd, hextends, hlone, hsuccess, hplans, hblank, order, hnotes, hhead,
    horder⟩ :=
    addAll_plans (w := .start (.initial resources) world) hsimple (fun _ => False) steps true
      hfinite hlone rfl (fun _ h => h.elim) fun _ _ => rfl
  have hresting := resting_of_added hextends hlone (fun id hid => hplans id (.inr hid))
    (fun id hid => hblank id (not_or_intro not_false hid)) horder hhead hnotes
  obtain ⟨executed, last, hrun, hrest, hexhausted⟩ := hresting.run hsimple hsteady
    fun id hid => (Set.Finite.mem_toFinset hfinite).mpr hid
  refine ⟨success && last.runSucceeded, executed, last, hadd.bind (hrun.bind (.of_exec rfl)), hrest,
    hexhausted, ?_⟩
  rw [Bool.and_eq_true, hsuccess, and_iff_right rfl, hrest.runSucceeded]
  exact Iff.rfl

/-- The step was complete before, or a run of it succeeded. -/
def Met (setting : Setting σ) (world : σ) (runs : List (Run σ)) (id : StepId) : Prop :=
  setting.There world id ∨ ∃ run ∈ runs, run.stepId = id ∧ run.succeeded setting.code = true

/-- What was executed, read off the calls of `run`. -/
theorem met_iff {runs : List (Run σ)} :
    setting.Met world runs id ↔ setting.There world id ∨
      (id, true) ∈ runs.map fun run => (run.stepId, run.succeeded setting.code) := by
  simp only [Met, List.mem_map, Prod.mk.injEq]

end Setting

/-! ## A pipeline -/

/-- `report` requires `clean` and `upload`, and `clean` requires `load`.  What is complete is what
was run, and `upload` fails. -/
def pipelineCode : StepCode (List StepId) where
  family := id
  module _ := none
  params _ := ∅
  priority _ := 0
  resources _ := ∅
  batchable _ := false
  batchParamNames _ := []
  maxBatchSize _ := none
  retryPolicy _ := {}
  acceptsMessages _ := false
  disabled _ := false
  external _ := false
  complete id world := .answers (decide (id ∈ world))
  requires id _ := .ok <|
    if id = "report" then .list [.item (some "clean"), .item (some "upload")]
    else if id = "clean" then .item (some "load")
    else .list []
  run id world :=
    if id = "upload" then .raises world (.user "no connection") else .returns (id :: world)
  output _ := .list []
  targetExists _ _ := .ok false
  onSuccess _ := .ok "null"
  onFailure _ _ := "failed"
  load _ family _ := .ok family

def pipelineSetting : Setting (List StepId) where
  code := pipelineCode
  worker := firstWorker
  env := defaultEnv
  clock now := { now := now }

theorem pipelineSetting_simple : pipelineSetting.Simple :=
  ⟨rfl, rfl, rfl, fun _ => rfl, fun _ => rfl, fun _ => rfl⟩

theorem pipelineCode_steady : pipelineCode.Steady where
  requires _ _ _ := rfl
  run := by
    intro id world _ _
    by_cases hupload : id = "upload"
    · exact ⟨world, .inr ⟨.user "no connection", if_pos hupload⟩, fun _ _ => rfl⟩
    · refine ⟨id :: world, .inl ⟨if_neg hupload, ?_⟩, fun other hother => ?_⟩
      · simp [pipelineCode]
      · simp [pipelineCode, hother]

theorem pipelineCode_deps (id : StepId) (world : List StepId) : pipelineCode.deps id world =
    .ok (if id = "report" then ["clean", "upload"] else if id = "clean" then ["load"] else []) := by
  unfold StepCode.deps pipelineCode
  dsimp only
  split_ifs <;> rfl

theorem mem_nextSteps_pipeline {world : List StepId} {id dep : StepId}
    (hdep : dep ∈ pipelineSetting.nextSteps world id) : dep ∈ ["clean", "upload", "load"] := by
  obtain ⟨deps, hdeps, hmem⟩ := pipelineSetting.deps_of_nextSteps hdep
  obtain rfl := Except.ok.inj ((pipelineCode_deps id world).symm.trans hdeps)
  split_ifs at hmem
  · exact List.mem_append_left ["load"] hmem
  · exact List.mem_append_right ["clean", "upload"] hmem
  · exact absurd hmem List.not_mem_nil

theorem pipeline_finite (steps : List StepId) :
    Set.Finite {id | pipelineSetting.Asked [] steps id} := by
  refine Set.Finite.subset (Finset.finite_toSet (steps ++ ["clean", "upload", "load"]).toFinset) ?_
  rintro id ⟨root, hroot, hleads⟩
  refine leads_mem ?_ (fun id _ dep hdep => ?_) hleads
  · exact List.mem_toFinset.mpr (List.mem_append_left _ hroot)
  · exact List.mem_toFinset.mpr (List.mem_append_right _ (mem_nextSteps_pipeline hdep))

/-- The steps above a step come first. -/
def pipelineRank (id : StepId) : ℕ :=
  if id = "report" then 2 else if id = "clean" then 1 else 0

theorem pipeline_acyclic : Acyclic (pipelineSetting.nextSteps []) := by
  refine Acyclic.of_rank pipelineRank fun id dep hdep => ?_
  obtain ⟨deps, hdeps, hmem⟩ := pipelineSetting.deps_of_nextSteps hdep
  obtain rfl := Except.ok.inj ((pipelineCode_deps id []).symm.trans hdeps)
  unfold pipelineRank
  split_ifs at hmem ⊢ <;> simp_all

theorem pipeline_offers (id : StepId) : pipelineSetting.Offers [] id :=
  ⟨rfl, rfl, _, pipelineCode_deps id []⟩

end Trun
