import Trun.Program.Exploring
import Trun.Program.Fuel
import Trun.Scheduler.Lone
import Trun.Worker.Session

/-!
# What `add` does

A worker that uses its scheduler alone, for steps without resources and
batches, explores the requirements of a step: it visits what can be reached
through steps that are incomplete and not external and whose methods do not
raise, and puts a card on the board for each.
-/

namespace Trun

open Program

namespace Request

def addStepArgs : Request → Option AddStepArgs
  | .addStep args => some args
  | _ => none

end Request

namespace StepPlan

/-- What a plan makes of a card. -/
def card (plan : StepPlan) (old : Option Card) : Card where
  status := plan.status
  deps := plan.deps.elim (old.elim ∅ Card.deps) List.toFinset
  mine := plan.runnable || old.elim false Card.mine

/-- An empty card is as good as none. -/
theorem card_placeholder (plan : StepPlan) :
    plan.card (some ⟨.unknown, ∅, false⟩) = plan.card none := rfl

end StepPlan

namespace Session

variable {σ : Type} {w w' w'' : Session σ}

/-- The calls of `add_step`, in order. -/
def added (w : Session σ) : List AddStepArgs := w.requests.filterMap Request.addStepArgs

/-- What is scheduled leaves everything else alone. -/
structure Extends (w w' : Session σ) : Prop where
  world : w'.world = w.world
  runs : w'.runs = w.runs
  batchRunningSteps : w'.batchRunningSteps = w.batchRunningSteps
  runSucceeded : w'.runSucceeded = w.runSucceeded
  unfulfilledCounts : w'.unfulfilledCounts = w.unfulfilledCounts
  stepResultQueue : w'.stepResultQueue = w.stepResultQueue
  runningSteps : w'.runningSteps = w.runningSteps
  stopRequestingWork : w'.stopRequestingWork = w.stopRequestingWork
  scheduled : ∀ id ∈ w.scheduledSteps, id ∈ w'.scheduledSteps

theorem Extends.refl (w : Session σ) : Extends w w :=
  ⟨rfl, rfl, rfl, rfl, rfl, rfl, rfl, rfl, fun _ h => h⟩

theorem Extends.trans (hfirst : Extends w w') (hlast : Extends w' w'') : Extends w w'' where
  world := hlast.world.trans hfirst.world
  runs := hlast.runs.trans hfirst.runs
  batchRunningSteps := hlast.batchRunningSteps.trans hfirst.batchRunningSteps
  runSucceeded := hlast.runSucceeded.trans hfirst.runSucceeded
  unfulfilledCounts := hlast.unfulfilledCounts.trans hfirst.unfulfilledCounts
  stepResultQueue := hlast.stepResultQueue.trans hfirst.stepResultQueue
  runningSteps := hlast.runningSteps.trans hfirst.runningSteps
  stopRequestingWork := hlast.stopRequestingWork.trans hfirst.stopRequestingWork
  scheduled := fun id h => hlast.scheduled id (hfirst.scheduled id h)

/-- What is noted on the way for the summary. -/
structure Notes (w w' : Session σ) (notes : List (StepId × Status × Option Bool)) : Prop where
  history : w'.addStepHistory = w.addStepHistory ++ notes
  responses : w'.getWorkResponseHistory = w.getWorkResponseHistory

theorem Notes.of_same (hhistory : w'.addStepHistory = w.addStepHistory)
    (hresponses : w'.getWorkResponseHistory = w.getWorkResponseHistory) : w.Notes w' [] :=
  ⟨hhistory.trans (List.append_nil _).symm, hresponses⟩

theorem Notes.trans {notes notes' : List (StepId × Status × Option Bool)}
    (hfirst : w.Notes w' notes) (hlast : w'.Notes w'' notes') : w.Notes w'' (notes ++ notes') where
  history := by rw [hlast.history, hfirst.history, List.append_assoc]
  responses := hlast.responses.trans hfirst.responses

end Session

namespace Setting

variable {σ : Type} (setting : Setting σ)

/-- A worker with default options that is no assistant, a scheduler that does not prune, and
steps without resources and batches of which none is disabled. -/
structure Simple : Prop where
  config : setting.config = {}
  assistant : setting.assistant = false
  unpruned : setting.env.config.pruneOnGetWork = false
  resources : ∀ id, setting.code.resources id = ∅
  batchable : ∀ id, setting.code.batchable id = false
  enabled : ∀ id, setting.code.disabled id = false

/-- The same steps, of which some are known to be complete without being asked. -/
def recalling (known : StepId → Bool) : Setting σ :=
  { setting with code := { setting.code with
      complete := fun id world =>
        if known id then .answers true else setting.code.complete id world } }

/-- What `_add` finds out about a step. -/
def planOf (world : σ) (id : StepId) : StepPlan :=
  match setting.code.complete id world with
  | .answers true => ⟨none, .done, false⟩
  | .answers false =>
    if setting.code.external id then ⟨none, .pending, setting.config.retryExternalSteps⟩
    else
      match setting.code.deps id world with
      | .error _ => ⟨none, .unknown, false⟩
      | .ok deps => ⟨some deps, .pending, true⟩
  | _ => ⟨none, .unknown, false⟩

/-- The steps that a step leads to. -/
def nextSteps (world : σ) (id : StepId) : List StepId := (setting.planOf world id).deps.getD []

/-- The worker's view of the scheduler. -/
def board (w : Session σ) : Board := w.scheduler.board setting.worker

/-- The call of `add_step` at the end of `_add`. -/
def scheduleCall (world : σ) (id : StepId) : AddStepArgs :=
  { setting.scheduleArgs id (setting.planOf world id) with
    runnable := (setting.planOf world id).runnable }

/-- What `_add` notes about a step. -/
def planNote (world : σ) (id : StepId) : StepId × Status × Option Bool :=
  (id, (setting.planOf world id).status, some (setting.planOf world id).runnable)

/-- What is left of a call of the scheduler. -/
def asked (w : Session σ) (request : Request) : Session σ :=
  { w with
    scheduler := setting.env.after w.scheduler ⟨setting.clock w.requests.length, request⟩
    requests := w.requests ++ [request] }

theorem extends_asked (w : Session σ) (request : Request) :
    w.Extends (setting.asked w request) :=
  ⟨rfl, rfl, rfl, rfl, rfl, rfl, rfl, rfl, fun _ h => h⟩

theorem added_asked (w : Session σ) (request : Request) :
    (setting.asked w request).added = w.added ++ request.addStepArgs.toList := by
  simp only [Session.added, asked, List.filterMap_append]
  cases hargs : request.addStepArgs <;> simp [hargs]

variable {setting}

/-- A call that the scheduler answers. -/
theorem exec_ask {w : Session σ} {request : Request} {response : Response}
    (houtcome : setting.env.outcome w.scheduler
      ⟨setting.clock w.requests.length, request⟩ = .ok response) :
    (setting.ask request).exec w = (.ok response, setting.asked w request) := by
  unfold ask
  rw [exec_get_bind, exec_modify_bind, houtcome]
  rfl

/-- `_add_step_batcher` tells the scheduler about a family, which changes no card. -/
theorem addStepBatcher_keeps {w : Session σ} (hlone : Scheduler.Lone setting.worker w.scheduler)
    (id : StepId) :
    ∃ w', (setting.addStepBatcher id).exec w = (.ok (), w') ∧ w.Extends w' ∧
      Scheduler.Lone setting.worker w'.scheduler ∧ setting.board w' = setting.board w ∧
      w.Notes w' [] := by
  have hsent : ∀ w : Session σ, w.Extends { w with
      batchFamiliesSent := w.batchFamiliesSent.add (setting.code.family id) } := fun w =>
    ⟨rfl, rfl, rfl, rfl, rfl, rfl, rfl, rfl, fun _ h => h⟩
  unfold addStepBatcher
  rw [exec_get_bind]
  dsimp only
  split
  · exact ⟨w, rfl, .refl w, hlone, rfl, .of_same rfl rfl⟩
  · split
    · exact ⟨_, rfl, hsent w, hlone, rfl, .of_same rfl rfl⟩
    · obtain ⟨houtcome, hlone', hboard⟩ := hlone.addStepBatcher setting.env
        (setting.clock w.requests.length) setting.worker (setting.code.family id)
        ⟨setting.code.batchParamNames id, setting.code.maxBatchSize id⟩
      exact ⟨_, exec_bind_ok (exec_ask houtcome), (setting.extends_asked w _).trans (hsent _),
        hlone', hboard, .of_same rfl rfl⟩

/-- The first half of `_add` comes to the plan, and may note a failure. -/
theorem makePlan_spec (hsimple : setting.Simple) {w : Session σ}
    (hlone : Scheduler.Lone setting.worker w.scheduler) (id : StepId) :
    ∃ w', (setting.makePlan id (setting.code.complete id w.world)).exec w =
        (.ok (setting.planOf w.world id), w') ∧ w.Extends w' ∧
      Scheduler.Lone setting.worker w'.scheduler ∧ setting.board w' = setting.board w ∧
      w.Notes w' [] := by
  have hplan : ∃ w', (setting.planStep id (setting.code.complete id w.world)).exec w =
        (.ok (setting.planOf w.world id), w') ∧ w.Extends w' ∧
      Scheduler.Lone setting.worker w'.scheduler ∧ setting.board w' = setting.board w ∧
      w.Notes w' [] := by
    have hbroken : ∀ w : Session σ, w.Extends { w with addSucceeded := false } := fun w =>
      ⟨rfl, rfl, rfl, rfl, rfl, rfl, rfl, rfl, fun _ h => h⟩
    unfold planOf
    cases setting.code.complete id w.world with
    | other truth => exact ⟨_, rfl, hbroken w, hlone, rfl, .of_same rfl rfl⟩
    | raises failure => exact ⟨_, rfl, hbroken w, hlone, rfl, .of_same rfl rfl⟩
    | answers value =>
        cases value with
        | true => exact ⟨w, rfl, .refl w, hlone, rfl, .of_same rfl rfl⟩
        | false =>
            simp only [planStep, exec_get_bind]
            split
            · exact ⟨w, rfl, .refl w, hlone, rfl, .of_same rfl rfl⟩
            · cases setting.code.deps id w.world with
              | error failure => exact ⟨_, rfl, hbroken w, hlone, rfl, .of_same rfl rfl⟩
              | ok deps =>
                  obtain ⟨w', hrun, hrest⟩ := addStepBatcher_keeps hlone id
                  exact ⟨w', exec_bind_ok hrun, hrest⟩
  obtain ⟨w', hrun, hrest⟩ := hplan
  refine ⟨w', ?_, hrest⟩
  unfold makePlan
  rw [exec_get_bind, hsimple.config]
  simp only [Option.any_none, Bool.false_eq_true, if_false]
  rw [exec_bind_ok hrun, hsimple.enabled id]
  rfl

/-- What the worker tells the scheduler about a step is written on its card. -/
theorem addStep_spec {w : Session σ} (hlone : Scheduler.Lone setting.worker w.scheduler)
    (hbatch : w.batchRunningSteps = ∅) {args : AddStepArgs} {runnable : Option Bool}
    (hlisted : args.stepId ∈ w.scheduledSteps)
    (hrunnable : args.runnable = runnable.getD false) (hplain : args.Plain setting.worker)
    (hcard : ((setting.board w args.stepId).getD args.freshCard).Accepts args) :
    ∃ w' status, (setting.addStep args runnable).exec w = (.ok (), w') ∧ w.Extends w' ∧
      Scheduler.Lone setting.worker w'.scheduler ∧
      (status = args.status ∨ (args.status = .failed ∧ status = .disabled)) ∧
      setting.board w' = (setting.board w).place args.stepId
        (args.cardOn ((setting.board w args.stepId).getD args.freshCard) status) ∧
      w.Notes w' [(args.stepId, args.status, runnable)] := by
  have hargs : { args with runnable := runnable.getD false } = args := by rw [← hrunnable]
  set noted := w.noteStep args.stepId args.status runnable with hnoted
  have hempty : noted.batchRunningSteps = ∅ := by
    rw [hnoted]
    simp only [Session.noteStep, hbatch]
    rfl
  have hextends : w.Extends noted :=
    ⟨rfl, rfl, hempty.trans hbatch.symm, rfl, rfl, rfl, rfl, rfl, fun _ h => h⟩
  have hnotes : w.Notes noted [(args.stepId, args.status, runnable)] := by
    refine ⟨?_, rfl⟩
    rw [hnoted]
    simp only [Session.noteStep, hbatch, if_pos hlisted]
    exact List.append_nil _
  have hnoted' : Scheduler.Lone setting.worker noted.scheduler := hlone
  obtain ⟨houtcome, hlone', status, hstatus, hboard⟩ := hnoted'.addStep setting.env
    (setting.clock noted.requests.length) hplain hcard
  refine ⟨setting.asked noted (.addStep args), status, ?_,
    hextends.trans (setting.extends_asked noted _), hlone', hstatus, hboard,
    ⟨hnotes.history, hnotes.responses⟩⟩
  unfold addStep
  rw [exec_modify_bind, hargs]
  exact exec_bind_ok (exec_ask houtcome)

/-- The second half of `_add` carries out the plan. -/
theorem scheduleStep_spec (hsimple : setting.Simple) {w : Session σ}
    (hlone : Scheduler.Lone setting.worker w.scheduler) (hbatch : w.batchRunningSteps = ∅)
    (world : σ) (id : StepId)
    (hcard : ∀ card, setting.board w id = some card → card.status ≠ .disabled ∧
      card.status ≠ .running ∧
      (card.status = .done → (setting.planOf world id).status ≠ .pending)) :
    ∃ w', (setting.scheduleStep id (setting.planOf world id)).exec w = (.ok (), w') ∧
      w.Extends w' ∧ Scheduler.Lone setting.worker w'.scheduler ∧ id ∈ w'.scheduledSteps ∧
      setting.board w' = (setting.board w).place id
        ((setting.planOf world id).card (setting.board w id)) ∧
      w.Notes w' [setting.planNote world id] := by
  have hstatus : (setting.planOf world id).status = .pending ∨
      (setting.planOf world id).status = .done ∨ (setting.planOf world id).status = .unknown := by
    unfold planOf
    repeat' split
    all_goals simp
  set args := setting.scheduleCall world id with hargs
  set plan := setting.planOf world id with hplan
  have hplain : args.Plain setting.worker := by
    constructor
    · rfl
    · rfl
    · rfl
    · simp [hargs, scheduleCall, scheduleArgs, hsimple.batchable]
    · simp [hargs, scheduleCall, scheduleArgs, AddStepArgs.declared, hsimple.resources]
    · rcases hstatus with h | h | h
      · exact .inl h
      · exact .inr (.inl h)
      · exact .inr (.inr (.inr h))
  have haccepts : ((setting.board w id).getD args.freshCard).Accepts args := by
    cases hrow : setting.board w id with
    | none => exact ⟨nofun, nofun, nofun⟩
    | some card =>
        obtain ⟨hdisabled, hrunning, hdone⟩ := hcard card hrow
        exact ⟨hdisabled, hdone, fun h => absurd h hrunning⟩
  have hfailed : args.status ≠ .failed := by
    intro h
    have h' : plan.status = .failed := h
    rcases hstatus with h'' | h'' | h'' <;> rw [h'] at h'' <;> cases h''
  set listed : Session σ := { w with scheduledSteps := w.scheduledSteps.add id } with hlisted
  have hextends : w.Extends listed :=
    ⟨rfl, rfl, rfl, rfl, rfl, rfl, rfl, rfl, fun other h => (OrderedSet.mem_add ..).mpr (.inr h)⟩
  have hlone₁ : Scheduler.Lone setting.worker listed.scheduler := hlone
  have hrunnable : args.runnable = (some plan.runnable).getD false := rfl
  have hself : args.stepId ∈ listed.scheduledSteps := (OrderedSet.mem_add ..).mpr (.inl rfl)
  obtain ⟨w', status, hrun, hextends', hlone', hresult, hboard, hnotes⟩ :=
    addStep_spec hlone₁ hbatch hself hrunnable hplain haccepts
  refine ⟨w', ?_, hextends.trans hextends', hlone', ?_, ?_, ⟨hnotes.history, hnotes.responses⟩⟩
  · unfold scheduleStep
    rw [exec_modify_bind]
    exact hrun
  · exact hextends'.scheduled id ((OrderedSet.mem_add ..).mpr (.inl rfl))
  · rcases hresult with rfl | ⟨h, -⟩
    · have hcards : args.cardOn ((setting.board w id).getD args.freshCard) args.status =
          plan.card (setting.board w id) := by
        have hdeps : args.deps = plan.deps := rfl
        have hnew : args.newDeps = none := rfl
        have hmine : (args.runnable && args.status != .failed) = plan.runnable := by
          have hnot : (args.status != .failed) = true := by simpa using hfailed
          rw [hnot, Bool.and_true]
          rfl
        simp only [AddStepArgs.cardOn, StepPlan.card, AddStepArgs.depsOn, hdeps, hnew, hmine,
          Card.mk.injEq]
        refine ⟨rfl, ?_, ?_⟩
        · cases setting.board w id <;> cases hcase : plan.deps <;>
            simp [AddStepArgs.freshCard, hdeps, hcase]
        · cases setting.board w id <;> rfl
      rw [hboard]
      exact congrArg _ hcards
    · exact absurd h hfailed

/-! ## Exploring -/

/-- A step and its completeness, as `add` queues it. -/
def queued (setting : Setting σ) (world : σ) (id : StepId) : StepId × Completion :=
  (id, setting.code.complete id world)

/-- A step that the cache knows is complete, and the others are asked. -/
theorem exec_checkComplete (w : Session σ) (id : StepId) :
    ∃ cache, (∀ other, other ≠ id →
        setting.knows cache other = setting.knows w.completionCache other) ∧
      (setting.checkComplete id).exec w =
        (.ok ((setting.recalling (setting.knows w.completionCache)).queued w.world id),
          { w with
            checks := w.checks ++ [id].filter fun id => !setting.knows w.completionCache id
            completionCache := cache }) := by
  set checked := setting.code.checkCompleteCached setting.config w.world w.completionCache id
    with hchecked
  have hanswer : checked.1 =
      ((setting.recalling (setting.knows w.completionCache)).queued w.world id).2 := by
    rw [hchecked, StepCode.checkCompleteCached]
    exact apply_ite Prod.fst ..
  refine ⟨checked.2, fun other hother => ?_, ?_⟩
  · rw [hchecked, StepCode.checkCompleteCached]
    split
    · rfl
    · dsimp only
      split
      · simp [knows, hother]
      · rfl
  · change (Except.ok (id, checked.1), { w with
      checks := w.checks ++ (if setting.knows w.completionCache id then [] else [id])
      completionCache := checked.2 }) = _
    rw [hanswer, List.filter_singleton]
    cases setting.knows w.completionCache id <;> rfl

/-- The steps that a step leads to are checked and queued, unless they were found before. -/
theorem discover_spec (w : Session σ) (deps : List StepId) (queue : List (StepId × Completion))
    (seen : OrderedSet StepId) (known : StepId → Bool)
    (hknown : ∀ id, id ∉ seen → setting.knows w.completionCache id = known id) :
    ∃ (new : List StepId) (seen' : OrderedSet StepId) (cache : CompletionCache), new.Nodup ∧
      (∀ id, id ∈ new ↔ id ∈ deps ∧ id ∉ seen) ∧ (∀ id, id ∈ seen' ↔ id ∈ seen ∨ id ∈ deps) ∧
      (∀ id, id ∉ seen' → setting.knows cache id = known id) ∧
      (setting.discover deps (queue, seen)).exec w =
        (.ok (new.reverse.map ((setting.recalling known).queued w.world) ++ queue, seen'),
          { w with
            checks := w.checks ++ new.filter fun id => !known id
            completionCache := cache }) := by
  induction deps generalizing w queue seen with
  | nil =>
      refine ⟨[], seen, w.completionCache, List.nodup_nil, by simp, by simp, hknown, ?_⟩
      rw [List.filter_nil, List.append_nil]
      rfl
  | cons dep rest ih =>
      unfold discover
      simp only [List.foldlM_cons]
      by_cases hseen : dep ∈ seen
      · obtain ⟨new, seen', cache, hnodup, hnew, hfound, hcache, hrun⟩ := ih w queue seen hknown
        refine ⟨new, seen', cache, hnodup, fun id => ?_, fun id => ?_, hcache, ?_⟩
        · rw [hnew, List.mem_cons]
          constructor
          · exact fun h => ⟨.inr h.1, h.2⟩
          · rintro ⟨rfl | h, hid⟩
            · exact absurd hseen hid
            · exact ⟨h, hid⟩
        · rw [hfound, List.mem_cons]
          constructor
          · exact fun h => h.imp_right .inr
          · rintro (h | rfl | h)
            · exact .inl h
            · exact .inl hseen
            · exact .inr h
        · rw [if_pos hseen]
          exact hrun
      · obtain ⟨checked, hchecked, hcheck⟩ := setting.exec_checkComplete w dep
        have hanswer : (setting.recalling (setting.knows w.completionCache)).queued w.world dep =
            (setting.recalling known).queued w.world dep := by
          simp only [queued, recalling, hknown dep hseen]
        simp only [hanswer, List.filter_singleton, hknown dep hseen] at hcheck
        obtain ⟨new, seen', cache, hnodup, hnew, hfound, hcache, hrun⟩ :=
          ih { w with
            checks := w.checks ++ bif !known dep then [dep] else []
            completionCache := checked } ((setting.recalling known).queued w.world dep :: queue)
            (seen.add dep) fun id hid => by
              rw [OrderedSet.mem_add, not_or] at hid
              exact (hchecked id hid.1).trans (hknown id hid.2)
        have hdep : dep ∉ new := fun h =>
          ((hnew dep).mp h).2 ((OrderedSet.mem_add ..).mpr (.inl rfl))
        refine ⟨dep :: new, seen', cache, List.nodup_cons.mpr ⟨hdep, hnodup⟩, fun id => ?_,
          fun id => ?_, hcache, ?_⟩
        · rw [List.mem_cons, hnew, OrderedSet.mem_add, List.mem_cons]
          by_cases hid : id = dep
          · subst hid
            simp [hseen]
          · simp [hid]
        · rw [hfound, OrderedSet.mem_add, List.mem_cons]
          tauto
        · rw [if_neg hseen]
          have hqueue : (do
              let item ← setting.checkComplete dep
              pure (item :: queue, seen.add dep) :
                WorkerM σ (List (StepId × Completion) × OrderedSet StepId)).exec w =
              (.ok ((setting.recalling known).queued w.world dep :: queue, seen.add dep), { w with
                checks := w.checks ++ bif !known dep then [dep] else []
                completionCache := checked }) :=
            exec_bind_ok hcheck
          refine (exec_bind_ok hqueue).trans (hrun.trans ?_)
          simp only [List.reverse_cons, List.map_append, List.append_assoc, List.map_cons,
            List.map_nil, List.cons_append, List.nil_append, List.filter_cons]
          cases known dep <;> simp

end Setting

end Trun
