import Mathlib.Data.Set.Finite.Basic
import Trun.Scheduler.Filing
import Trun.Worker.Exploring

/-!
# What `add` reports

Whatever requests the scheduler has served before, `add` reports every step that
can be reached, and each of them once.  A step whose methods fail is reported as
unknown and leads nowhere.
-/

namespace Trun

open Program

namespace Setting

variable {σ : Type} (setting : Setting σ)

/-- `complete` of the step raises or returns no boolean, or `deps` raises. -/
def Fails (world : σ) (id : StepId) : Prop :=
  match setting.code.complete id world with
  | .answers true => False
  | .answers false => setting.code.external id = false ∧
      ∃ failure, setting.code.deps id world = .error failure
  | _ => True

/-- What the worker has done on the way to another state, if the steps that are looked at are
asked for their completeness unless they are known, and the state of the scheduler stays good. -/
structure Adds (good : Scheduler → Prop) (known : StepId → Bool) (w w' : Session σ)
    (calls : List AddStepArgs) (looked : List StepId) (fails : Prop) : Prop where
  world : w'.world = w.world
  good : good w'.scheduler
  added : w'.added = w.added ++ calls
  checks : w'.checks = w.checks ++ looked.filter fun id => !known id
  succeeded : w'.addSucceeded = true ↔ w.addSucceeded = true ∧ ¬fails

variable {setting} {good : Scheduler → Prop} {known : StepId → Bool} {w w' w'' : Session σ}
  {id : StepId}

theorem Adds.trans {calls calls' : List AddStepArgs} {looked looked' : List StepId}
    {fails fails' : Prop} (hfirst : Adds good known w w' calls looked fails)
    (hlast : Adds good known w' w'' calls' looked' fails') :
    Adds good known w w'' (calls ++ calls') (looked ++ looked') (fails ∨ fails') where
  world := hlast.world.trans hfirst.world
  good := hlast.good
  added := by rw [hlast.added, hfirst.added, List.append_assoc]
  checks := by rw [hlast.checks, hfirst.checks, List.filter_append, List.append_assoc]
  succeeded := by rw [hlast.succeeded, hfirst.succeeded, not_or, and_assoc]

/-- Nothing of this has changed. -/
theorem Adds.of_same (hgood : good w'.scheduler) (hworld : w'.world = w.world)
    (hadded : w'.added = w.added) (hchecks : w'.checks = w.checks)
    (hsucceeded : w'.addSucceeded = w.addSucceeded) : Adds good known w w' [] [] False where
  world := hworld
  good := hgood
  added := by rw [hadded, List.append_nil]
  checks := by rw [hchecks, List.filter_nil, List.append_nil]
  succeeded := by rw [hsucceeded, not_false_eq_true, and_true]

theorem Adds.congr {calls : List AddStepArgs} {looked : List StepId} {fails fails' : Prop}
    (hadds : Adds good known w w' calls looked fails) (hiff : fails ↔ fails') :
    Adds good known w w' calls looked fails' := by
  rw [← propext hiff]
  exact hadds

theorem Adds.refl (hgood : good w.scheduler) : Adds good known w w [] [] False :=
  .of_same hgood rfl rfl rfl rfl

/-! ## Calls of the scheduler -/

/-- In a good state the calls of `add` return, and they leave a good state. -/
structure Welcomes (env : Env) (good : Scheduler → Prop) : Prop where
  batcher : ∀ {s : Scheduler}, good s → ∀ moment worker family batcher,
    good (env.after s ⟨moment, .addStepBatcher worker family batcher⟩)
  report : ∀ {s : Scheduler}, good s → ∀ (moment : Moment) {args : AddStepArgs},
    args.status ≠ .running → env.outcome s ⟨moment, .addStep args⟩ = .ok .nothing ∧
      good (env.after s ⟨moment, .addStep args⟩)

/-- The states that any requests lead to are good. -/
theorem welcomes_keyed (env : Env) : Welcomes env Scheduler.Keyed where
  batcher := fun hkeyed moment _ _ _ => (Scheduler.serve_files env moment
    ⟨Request.noConfusion, Request.noConfusion⟩ _ hkeyed.filed).1.1
  report := fun hkeyed moment _ hstatus => by
    obtain ⟨t, hrun⟩ := Scheduler.addStep_returns env.config moment hkeyed hstatus
    refine ⟨congrArg Prod.fst (Scheduler.exec_reply (fun _ => Response.nothing) hrun), ?_⟩
    exact (Scheduler.serve_files env moment ⟨Request.noConfusion, Request.noConfusion⟩ _
      hkeyed.filed).1.1

/-- Sound states are. -/
theorem welcomes_sound (env : Env) : Welcomes env Scheduler.Sound where
  batcher := fun hsound moment worker family batcher => (hsound.serve_meets env moment
    (rfl : (Request.addStepBatcher worker family batcher).isOrdinary = true)).1
  report := fun {s} hsound moment {args} hstatus => by
    obtain ⟨outcome, hadds, houtcome⟩ := hsound.after_addStep env moment args
    have hafter := (hsound.receiveStep env.config moment args).addsStep hadds
    refine ⟨?_, hafter⟩
    rw [houtcome]
    generalize env.after s _ = t at hadds
    cases hadds with
    | dropped => rfl
    | accepted => rfl
    | failed _ _ hraises => exact absurd hraises.1.1 hstatus

section Welcomes

variable (hwelcomes : Welcomes setting.env good)
include hwelcomes

/-- `add_step_batcher` returns. -/
theorem addStepBatcher_adds (hgood : good w.scheduler) (id : StepId) :
    ∃ w', (setting.addStepBatcher id).exec w = (.ok (), w') ∧
      Adds good known w w' [] [] False ∧ w'.completionCache = w.completionCache := by
  unfold addStepBatcher
  rw [exec_get_bind]
  dsimp only
  split
  · exact ⟨w, rfl, .refl hgood, rfl⟩
  · split
    · exact ⟨_, rfl, .of_same hgood rfl rfl rfl rfl, rfl⟩
    · have hgood' := hwelcomes.batcher hgood (setting.clock w.requests.length) setting.worker
        (setting.code.family id) ⟨setting.code.batchParamNames id, setting.code.maxBatchSize id⟩
      refine ⟨_, exec_bind_ok (exec_ask rfl), .of_same hgood' rfl ?_ rfl rfl, rfl⟩
      exact (setting.added_asked w _).trans (List.append_nil _)

/-- `add_step` returns where it claims no run. -/
theorem addStep_adds (hgood : good w.scheduler) (args : AddStepArgs) (runnable : Option Bool)
    (hstatus : args.status ≠ .running) :
    ∃ w', (setting.addStep args runnable).exec w = (.ok (), w') ∧
      Adds good known w w' [{ args with runnable := runnable.getD false }] [] False ∧
      w'.completionCache = w.completionCache := by
  set noted := w.noteStep args.stepId args.status runnable with hnoted
  set call : AddStepArgs := { args with runnable := runnable.getD false } with hcall
  have hnoted' : good noted.scheduler := hgood
  have hstatus' : call.status ≠ .running := hstatus
  obtain ⟨houtcome, hgood'⟩ :=
    hwelcomes.report hnoted' (setting.clock noted.requests.length) hstatus'
  refine ⟨setting.asked noted (.addStep call), ?_, ?_, rfl⟩
  · unfold addStep
    rw [exec_modify_bind]
    exact exec_bind_ok (exec_ask houtcome)
  · refine ⟨rfl, hgood', setting.added_asked noted _, ?_, ?_⟩
    · exact (List.append_nil _).symm
    · rw [not_false_eq_true, and_true]
      rfl

end Welcomes

/-! ## One step -/

/-- The first half of `_add` comes to the plan. -/
theorem makePlan_adds (hwelcomes : Welcomes setting.env good) (hgood : good w.scheduler)
    (hlimit : setting.config.stepLimit = none) (henabled : setting.code.disabled id = false) :
    ∃ w', (setting.makePlan id (setting.code.complete id w.world)).exec w =
        (.ok (setting.planOf w.world id), w') ∧
      Adds good known w w' [] [] (setting.Fails w.world id) ∧
      w'.completionCache = w.completionCache := by
  have hbroken : Adds good known w { w with addSucceeded := false } [] [] True :=
    ⟨rfl, hgood, (List.append_nil _).symm, (List.append_nil _).symm, by simp⟩
  have hplan : ∃ w', (setting.planStep id (setting.code.complete id w.world)).exec w =
        (.ok (setting.planOf w.world id), w') ∧
      Adds good known w w' [] [] (setting.Fails w.world id) ∧
      w'.completionCache = w.completionCache := by
    unfold planOf Fails
    cases setting.code.complete id w.world with
    | other truth => exact ⟨_, rfl, hbroken, rfl⟩
    | raises failure => exact ⟨_, rfl, hbroken, rfl⟩
    | answers value =>
        cases value with
        | true => exact ⟨w, rfl, .refl hgood, rfl⟩
        | false =>
            simp only [planStep, exec_get_bind]
            cases setting.code.external id with
            | true => exact ⟨w, rfl, (Adds.refl hgood).congr (by simp), rfl⟩
            | false =>
                cases setting.code.deps id w.world with
                | error failure => exact ⟨_, rfl, hbroken.congr (by simp), rfl⟩
                | ok deps =>
                    obtain ⟨w', hrun, hadds, hcache⟩ := addStepBatcher_adds hwelcomes hgood id
                    exact ⟨w', exec_bind_ok hrun, hadds.congr (by simp), hcache⟩
  obtain ⟨w', hrun, hadds⟩ := hplan
  refine ⟨w', ?_, hadds⟩
  unfold makePlan
  rw [exec_get_bind, hlimit]
  simp only [Option.any_none, Bool.false_eq_true, if_false]
  rw [exec_bind_ok hrun, henabled]
  rfl

/-- A plan claims no run. -/
theorem planOf_status (world : σ) (id : StepId) : (setting.planOf world id).status ≠ .running := by
  unfold planOf
  repeat' split
  all_goals exact Status.noConfusion

/-- The second half of `_add` reports the step. -/
theorem scheduleStep_adds (hwelcomes : Welcomes setting.env good) (hgood : good w.scheduler)
    (world : σ) (id : StepId) :
    ∃ w', (setting.scheduleStep id (setting.planOf world id)).exec w = (.ok (), w') ∧
      Adds good known w w' [setting.scheduleCall world id] [] False ∧
      w'.completionCache = w.completionCache := by
  have hlisted : Adds good known w { w with
      scheduledSteps := w.scheduledSteps.add id } [] [] False :=
    .of_same hgood rfl rfl rfl rfl
  obtain ⟨w', hrun, hadds, hcache⟩ := addStep_adds hwelcomes hlisted.good
    (setting.scheduleArgs id (setting.planOf world id))
    (some (setting.planOf world id).runnable) (planOf_status world id)
  refine ⟨w', ?_, (hlisted.trans hadds).congr (or_self_iff ..), hcache⟩
  unfold scheduleStep
  rw [exec_modify_bind]
  exact hrun

/-- One round of the loop of `add`. -/
theorem explore_round (hwelcomes : Welcomes setting.env good)
    (queue : List (StepId × Completion)) (seen : OrderedSet StepId) (hgood : good w.scheduler)
    (hlimit : setting.config.stepLimit = none)
    (henabled : setting.code.disabled id = false)
    (hknown : ∀ id, id ∉ seen → setting.knows w.completionCache id = known id) :
    ∃ (new : List StepId) (seen' : OrderedSet StepId) (w' : Session σ), new.Nodup ∧
      (∀ dep, dep ∈ new ↔ dep ∈ (setting.recalling known).nextSteps w.world id ∧ dep ∉ seen) ∧
      (∀ dep, dep ∈ seen' ↔
        dep ∈ seen ∨ dep ∈ (setting.recalling known).nextSteps w.world id) ∧
      (∀ fuel, (setting.explore (fuel + 1)
          ((setting.recalling known).queued w.world id :: queue, seen)).exec w =
        (setting.explore fuel
          (new.reverse.map ((setting.recalling known).queued w.world) ++ queue, seen')).exec w') ∧
      Adds good known w w' [(setting.recalling known).scheduleCall w.world id] new
        ((setting.recalling known).Fails w.world id) ∧
      ∀ id, id ∉ seen' → setting.knows w'.completionCache id = known id := by
  have hwelcomes' : Welcomes (setting.recalling known).env good := hwelcomes
  obtain ⟨planned, hplan, (hplanned : Adds good known _ _ _ _ _), hkept⟩ :=
    makePlan_adds hwelcomes' hgood hlimit henabled
  obtain ⟨new, seen', cache, hnodup, hnew, hseen, hcache, hdiscover⟩ :=
    setting.discover_spec planned ((setting.recalling known).nextSteps w.world id) queue seen known
      (by rw [hkept]; exact hknown)
  have hfound : Adds good known planned { planned with
      checks := planned.checks ++ new.filter fun id => !known id
      completionCache := cache } [] new False :=
    ⟨rfl, hplanned.good, (List.append_nil _).symm, rfl, by simp⟩
  obtain ⟨last, hschedule, hlast, hsame⟩ :=
    scheduleStep_adds hwelcomes' hfound.good w.world id
  refine ⟨new, seen', last, hnodup, hnew, hseen, fun fuel => ?_, ?_, ?_⟩
  · have hqueued : (setting.recalling known).queued planned.world =
        (setting.recalling known).queued w.world := by
      rw [hplanned.world]
    rw [hqueued] at hdiscover
    exact (exec_bind_ok hplan).trans ((exec_bind_ok hdiscover).trans (exec_bind_ok hschedule))
  · have hadds := (hplanned.trans hfound).trans hlast
    rw [List.nil_append, List.nil_append, List.append_nil] at hadds
    exact hadds.congr (by rw [or_false, or_false])
  · rw [hsame]
    exact hcache

/-! ## The search -/

/-- The loop of `add` visits what can be reached. -/
theorem explore_adds (hwelcomes : Welcomes setting.env good) {world : σ} {root : StepId}
    {nodes : Finset StepId} (hlimit : setting.config.stepLimit = none)
    (henabled : ∀ id ∈ nodes, setting.code.disabled id = false) (hroot : root ∈ nodes)
    (hnodes : ∀ id ∈ nodes, ∀ dep ∈ (setting.recalling known).nextSteps world id, dep ∈ nodes)
    {visited found : List StepId} {seen : OrderedSet StepId}
    (hsearch : Exploration ((setting.recalling known).nextSteps world) root visited found)
    (hseen : ∀ id, id ∈ seen ↔ id ∈ visited ++ found) (hworld : w.world = world)
    (hgood : good w.scheduler)
    (hknown : ∀ id, id ∉ seen → setting.knows w.completionCache id = known id) :
    ∃ order looked last, Settles (fun fuel => setting.explore fuel
        (found.map ((setting.recalling known).queued world), seen)) w () last ∧
      Adds good known w last (order.map ((setting.recalling known).scheduleCall world)) looked
        (∃ id ∈ order, (setting.recalling known).Fails world id) ∧
      Exploration ((setting.recalling known).nextSteps world) root (order.reverse ++ visited) [] ∧
      (found ++ looked).Perm order := by
  induction hroom : nodes.card - visited.length using Nat.strong_induction_on
    generalizing w visited found seen with
  | _ room ih =>
      cases found with
      | nil =>
          refine ⟨[], [], w, ⟨0, fun fuel _ => by cases fuel <;> rfl⟩, ?_, hsearch, .refl _⟩
          exact (Adds.refl hgood).congr (by simp)
      | cons id rest =>
          have hlt := hsearch.length_lt hroot hnodes
          have hid : id ∈ nodes := leads_mem hroot hnodes
            (hsearch.reached id (List.mem_append_right _ (List.mem_cons_self ..)))
          subst hworld
          obtain ⟨new, seen', w', hnodup, hnew, hseen', hround, hadds, hknown'⟩ :=
            explore_round hwelcomes (rest.map ((setting.recalling known).queued w.world)) seen
              hgood hlimit (henabled id hid) hknown
          have hsearch' := hsearch.visit (List.nodup_reverse.mpr hnodup) fun dep => by
            rw [List.mem_reverse, hnew, hseen]
          have hfound' : ∀ dep, dep ∈ seen' ↔ dep ∈ id :: visited ++ (new.reverse ++ rest) := by
            intro dep
            rw [hseen', hseen]
            have hmem := hnew dep
            rw [hseen] at hmem
            simp only [List.mem_append, List.mem_cons, List.mem_reverse] at hmem ⊢
            tauto
          obtain ⟨order, looked, last, hsettles, hrest, hdone, hperm⟩ :=
            ih (nodes.card - (id :: visited).length) (by rw [List.length_cons]; omega) hsearch'
              hfound' hadds.world hadds.good hknown' rfl
          refine ⟨id :: order, new ++ looked, last, ?_, ?_, ?_, ?_⟩
          · refine Settles.round hround ?_
            rw [List.map_append] at hsettles
            exact hsettles
          · have hall := hadds.trans hrest
            exact hall.congr (by simp)
          · rw [List.reverse_cons, List.append_assoc]
            exact hdone
          · rw [List.cons_append]
            refine List.Perm.cons id (List.Perm.trans ?_ hperm)
            rw [← List.append_assoc]
            refine List.Perm.append_right looked ?_
            exact List.perm_append_comm.trans
              (List.Perm.append_right rest (List.reverse_perm new).symm)

/-- What the worker works with if it asks no step that its cache knows to be complete. -/
def remembering (setting : Setting σ) (w : Session σ) : Setting σ :=
  setting.recalling (setting.knows w.completionCache)

/-- `add` comes to an end, and on the way it reports every step that can be reached through steps
that are incomplete, not external, and do not fail, and each of them once.  It checks those that
the completion cache does not know, each of them once, and returns whether none has failed. -/
theorem add_reports (w : Session σ) (root : StepId) {resources : Resources} {events : List Event}
    (hreached : w.scheduler = setting.env.run (.initial resources) events)
    (hlimit : setting.config.stepLimit = none)
    (hfinite : Set.Finite {id | Leads ((setting.remembering w).nextSteps w.world) root id})
    (henabled : ∀ id, Leads ((setting.remembering w).nextSteps w.world) root id →
      setting.code.disabled id = false) :
    ∃ (order checked : List StepId) (answer : Bool) (last : Session σ),
      Settles (fun fuel => setting.add fuel root) w answer last ∧ order.Nodup ∧
      (∀ id, id ∈ order ↔ Leads ((setting.remembering w).nextSteps w.world) root id) ∧
      last.added = w.added ++ order.map ((setting.remembering w).scheduleCall w.world) ∧
      last.checks = w.checks ++ checked ∧
      checked.Perm (order.filter fun id => !setting.knows w.completionCache id) ∧
      (answer = true ↔ ∀ id ∈ order, ¬(setting.remembering w).Fails w.world id) := by
  have hkeyed : w.scheduler.Keyed := hreached ▸ Scheduler.run_keyed setting.env resources events
  set known := setting.knows w.completionCache with hknown
  set nodes := Set.Finite.toFinset hfinite with hnodes
  have hmem : ∀ {id}, id ∈ nodes ↔ Leads ((setting.remembering w).nextSteps w.world) root id :=
    fun {id} => Set.Finite.mem_toFinset hfinite
  obtain ⟨cache, hcache, hcheck⟩ := setting.exec_checkComplete { w with addSucceeded := true } root
  set first : Session σ := { w with
    addSucceeded := true
    checks := w.checks ++ [root].filter fun id => !known id
    completionCache := cache } with hfirst
  have hstart : ∀ id, id ∈ OrderedSet.empty.add root ↔ id ∈ [] ++ [root] := by
    intro id
    rw [OrderedSet.mem_add, List.nil_append, List.mem_singleton]
    exact or_iff_left nofun
  obtain ⟨order, looked, last, ⟨bound, hrun⟩, hadds, hdone, hperm⟩ :=
    explore_adds (w := first) (welcomes_keyed setting.env) hlimit
      (fun id hid => henabled id (hmem.mp hid)) (hmem.mpr .refl)
      (fun id hid dep hdep => hmem.mpr ((hmem.mp hid).tail hdep))
      (.start ((setting.recalling known).nextSteps w.world) root) hstart rfl hkeyed fun id hid => by
        rw [hstart, List.nil_append, List.mem_singleton] at hid
        exact hcache id hid
  rw [List.append_nil] at hdone
  refine ⟨order, (root :: looked).filter fun id => !known id, last.addSucceeded, last,
    ⟨bound, fun fuel hfuel => ?_⟩, ?_, fun id => ?_, hadds.added, ?_, hperm.filter _, ?_⟩
  · unfold add
    rw [exec_modify_bind]
    refine (exec_bind_ok hcheck).trans ?_
    exact (exec_bind_ok (exec_tryCatch_ok (hrun fuel hfuel))).trans rfl
  · have hnodup := hdone.nodup
    rw [List.append_nil, List.nodup_reverse] at hnodup
    exact hnodup
  · rw [← List.mem_reverse]
    exact hdone.mem_visited id
  · rw [hadds.checks, hfirst, List.append_assoc, ← List.filter_append]
    rfl
  · rw [hadds.succeeded, and_iff_right rfl]
    push Not
    rfl

end Setting

/-! ## A circle -/

/-- `A` and `B` require each other, and `A` requires a step whose completeness is not known. -/
def circularCode : StepCode Unit where
  family := id
  module _ := none
  params _ := ∅
  priority _ := 0
  resources _ := ∅
  batchable _ := false
  batchParamNames _ := []
  maxBatchSize _ := none
  retryPolicy _ := {}
  acceptsMessages _ := false
  disabled _ := false
  external _ := false
  complete id _ := if id = "C" then .raises (.user "no connection") else .answers false
  requires id _ := .ok <|
    if id = "A" then .dict [("first", .item "B"), ("rest", .list [.item none, .item "C"])]
    else .item "A"
  run _ _ := .returns ()
  output _ := .list []
  targetExists _ _ := .ok false
  onSuccess _ := .ok "null"
  onFailure _ _ := "failed"
  load _ family _ := .ok family

def circularSetting : Setting Unit where
  code := circularCode
  worker := firstWorker
  env := defaultEnv
  clock now := { now := now }

/-- All three are reported. -/
theorem circular_steps_reported : ∃ order answer last,
    Settles (fun fuel => circularSetting.add fuel "A") (.start (.initial ∅) ()) answer last ∧
      order.Nodup ∧ (∀ id, id ∈ order ↔ Leads (circularSetting.nextSteps ()) "A" id) ∧
      last.added = order.map (circularSetting.scheduleCall ()) ∧ last.checks.Perm order ∧
      (answer = true ↔ ∀ id ∈ order, ¬circularSetting.Fails () id) := by
  have hfinite : Set.Finite {id | Leads (circularSetting.nextSteps ()) "A" id} := by
    refine Set.Finite.subset (Finset.finite_toSet {"A", "B", "C"}) fun id hleads => ?_
    exact leads_mem (by decide) (by decide) hleads
  obtain ⟨order, checked, answer, last, hsettles, hnodup, hmem, hadded, hchecks, hperm, hanswer⟩ :=
    circularSetting.add_reports (.start (.initial ∅) ()) "A"
      (rfl : _ = circularSetting.env.run (.initial ∅) []) rfl hfinite fun _ _ => rfl
  refine ⟨order, answer, last, hsettles, hnodup, hmem, hadded, ?_, hanswer⟩
  rw [hchecks]
  exact hperm.trans (.of_eq (List.filter_eq_self.mpr fun _ _ => rfl))

/-! ## A step that the cache knows -/

/-- Every step is complete, and a worker with a completion cache is asked for one of them. -/
def rememberingSetting : Setting Unit :=
  { circularSetting with
    code := { circularCode with complete := fun _ _ => .answers true }
    config := { cacheStepCompletion := true } }

def addedOnce : Session Unit := (rememberingSetting.add 1 "A").final (.start (.initial ∅) ())

/-- It is added once more, and reported, without being checked. -/
theorem remembered_step_unchecked :
    (rememberingSetting.add 1 "A").result addedOnce = .ok true ∧
      ¬∃ checked, ((rememberingSetting.add 1 "A").final addedOnce).checks =
        addedOnce.checks ++ checked ∧ checked.Perm ["A"] := by
  refine ⟨by decide, ?_⟩
  rintro ⟨checked, hchecks, hperm⟩
  have hsame : ((rememberingSetting.add 1 "A").final addedOnce).checks = addedOnce.checks := by
    decide
  rw [hsame, List.self_eq_append_right] at hchecks
  rw [hchecks] at hperm
  exact absurd hperm.length_eq (by decide)

end Trun
