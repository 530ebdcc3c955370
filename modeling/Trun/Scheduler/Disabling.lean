import Trun.Scheduler.Handling
import Trun.Scheduler.Owners
import Trun.Scheduler.Eligibility

/-!
# Steps that the scheduler disables

A step that fails too often is disabled for some time.  `set_status` ignores what is
said about it meanwhile, unless it is that the step is done or disabled, and the first
`prune` after that time gives the step another chance with a clean record.
-/

namespace Trun

open Program

namespace Step

def DisabledSince (step : Step) (since : Time) : Prop :=
  step.status = .disabled ∧ step.schedulerDisableTime = some since

instance (step : Step) (since : Time) : Decidable (step.DisabledSince since) := by
  unfold DisabledSince; infer_instance

/-- The step may run again, and none of its failures counts. -/
def Forgiven (step : Step) : Prop :=
  (step.status = .failed ∨ step.status = .pending) ∧ step.failures = [] ∧
    step.firstFailureTime = none

instance (step : Step) : Decidable step.Forgiven := by
  unfold Forgiven; infer_instance

variable {step other : Step} {since now : Time} {config : Config}

theorem DisabledSince.congr (hdisabled : step.DisabledSince since)
    (hstatus : other.status = step.status)
    (htime : other.schedulerDisableTime = step.schedulerDisableTime) :
    other.DisabledSince since :=
  ⟨hstatus.trans hdisabled.1, htime.trans hdisabled.2⟩

theorem DisabledSince.ignores (hdisabled : step.DisabledSince since) {newStatus : Status}
    (hdone : newStatus ≠ .done) (hagain : newStatus ≠ .disabled) :
    step.ignores newStatus = true := by
  simp [Step.ignores, hdisabled.1, hdisabled.2, hdone, hagain]

theorem DisabledSince.not_running (hdisabled : step.DisabledSince since) :
    step.status.isRunning = false := by
  rw [hdisabled.1]
  rfl

/-! ## Visits -/

theorem failDead_of_stopped (assistants : List WorkerId)
    (hstopped : step.status.isRunning = false) :
    step.failDead config now assistants = step := by
  unfold failDead
  rw [if_neg]
  intro hdead
  rw [runByDead_running hdead] at hstopped
  cases hstopped

theorem stampUnneeded_disabled (config : Config) (now : Time)
    (hdisabled : step.DisabledSince since) :
    (step.stampUnneeded config now).DisabledSince since := by
  unfold stampUnneeded
  split <;> exact hdisabled

/-- A disabled step that is re-enabled fails without a record. -/
theorem reEnabled_forgiven (config : Config) (now : Time) (hdisabled : step.status = .disabled) :
    (step.reEnabled config now).status = .failed ∧
      (step.reEnabled config now).retry = some (now + config.retryDelay) ∧
      (step.reEnabled config now).failures = [] ∧
      (step.reEnabled config now).firstFailureTime = none := by
  have hignores : step.reEnable.ignores .failed = false := by
    simp [Step.ignores, reEnable, clearFailures]
  have hfailed := settle_status_of_disabled _ (some config) now hignores hdisabled
  exact ⟨hfailed, Step.settle_retry_eq _ _ _ hignores hfailed, rfl, rfl⟩

theorem reEnableIfExpired_disabled (hdisabled : step.DisabledSince since) :
    step.reEnableIfExpired config now =
      if config.disablePersist < now - since then step.reEnabled config now else step := by
  unfold reEnableIfExpired
  rw [hdisabled.1, hdisabled.2]

theorem retryIfDue_of_ne (hstatus : step.status ≠ .failed) :
    step.retryIfDue config now = step := by
  unfold retryIfDue
  rw [if_neg fun h => hstatus h.1]

/-- Before the disable has expired, a visit leaves it. -/
theorem visited_disabled (assistants : List WorkerId) (hdisabled : step.DisabledSince since)
    (hlasts : ¬config.disablePersist < now - since) :
    (step.visited config now assistants).DisabledSince since := by
  have hstamped := stampUnneeded_disabled config now hdisabled
  unfold visited refreshed
  rw [failDead_of_stopped assistants hdisabled.not_running, reEnableIfExpired_disabled hstamped,
    if_neg hlasts, retryIfDue_of_ne (by rw [hstamped.1]; decide)]
  exact hstamped

/-- After that, a visit forgives the step. -/
theorem visited_expired (assistants : List WorkerId) (hdisabled : step.DisabledSince since)
    (hexpired : config.disablePersist < now - since) :
    (step.visited config now assistants).status = .failed ∧
      (step.visited config now assistants).Forgiven := by
  have hstamped := stampUnneeded_disabled config now hdisabled
  obtain ⟨hstatus, hretry, hfailures, hfirst⟩ :=
    reEnabled_forgiven config now hstamped.1
  -- the retry that the failure asks for is not due yet
  have hwaits : ((step.stampUnneeded config now).reEnabled config now).retryIfDue config now =
      (step.stampUnneeded config now).reEnabled config now := by
    unfold retryIfDue
    rw [hretry]
    split
    · rename_i hfailed
      exact if_neg (Int.not_lt.mpr (Int.le_add_of_nonneg_right hfailed.2))
    · rfl
  unfold visited refreshed
  rw [failDead_of_stopped assistants hdisabled.not_running, reEnableIfExpired_disabled hstamped,
    if_pos hexpired, hwaits]
  exact ⟨hstatus, .inl hstatus, hfailures, hfirst⟩

end Step

/-- The request does not report the step as done or disabled, does not mark it as done or
re-enable it, and does not return to the state file. -/
def Request.leavesDisabled (id : StepId) : Request → Bool
  | .addStep args => args.stepId != id || (args.status != .done && args.status != .disabled)
  | .markAsDone other | .reEnableStep other => other != id
  | .load => false
  | _ => true

namespace Scheduler

variable {s t : Scheduler} {env : Env} {moment : Moment} {ref : Ref} {since : Time}

/-- `prune` and a disabled step. -/
theorem prune_disabled {config : Config} {now : Time} (hsound : s.Sound) (hfiled : s.Filed ref)
    (hdisabled : (s.stepAt ref).DisabledSince since)
    (hrun : (prune config now).exec s = (.ok (), t)) :
    if config.disablePersist < now - since then
      (t.stepAt ref).status = .failed ∧ (t.stepAt ref).Forgiven
    else (t.stepAt ref).DisabledSince since := by
  obtain ⟨hnodup, hmem, visited, hvisits, hobjects⟩ :=
    prune_visits hsound.stored hsound.retriable hrun
  have hinactivates : Inactivates (s.silentWorkers config now) s (s.pruneWorkers config now) :=
    inactivateWorkers_spec hsound.stored _
  have hkept : ((s.pruneWorkers config now).stepAt ref).DisabledSince since := by
    obtain ⟨step, hstep⟩ := hinactivates.plan ref
    rw [hstep]
    exact hdisabled
  have hbefore : ((s.pruneWorkers config now).stepAt ref).status ≠ .batchRunning := by
    rw [hkept.1]
    decide
  have hown := fun hafter => hvisits.own ((hmem ref).mpr hfiled) hnodup hbefore hafter
  rw [hobjects]
  split
  · rename_i hexpired
    have hvisited := Step.visited_expired (s.pruneWorkers config now).assistants hkept hexpired
    rw [hown (by rw [hvisited.1]; decide)]
    exact hvisited
  · rename_i hlasts
    have hvisited := Step.visited_disabled (s.pruneWorkers config now).assistants hkept hlasts
    rw [hown (by rw [hvisited.1]; decide)]
    exact hvisited

/-- `get_work` does not touch a step that neither waits nor runs. -/
theorem GetsWork.idle {args : GetWorkArgs} {outcome : Except Raised Reply} (hsound : s.Sound)
    (hlooks : env.LooksAtFiledSteps s moment args)
    (hworks : GetsWork env moment args s outcome t)
    (hpending : ((env.received s moment args).stepAt ref).status ≠ .pending)
    (hstopped : ((env.received s moment args).stepAt ref).status.isRunning = false) :
    t.stepAt ref = (env.received s moment args).stepAt ref := by
  obtain ⟨-, -, hrstored, -⟩ :=
    receiveRequest_spec env moment args hsound.stored hsound.retriable
  obtain ⟨-, hprepares⟩ := prepares_ranked env moment args hsound.stored hsound.retriable
  have hranked : (env.ranked s moment args).stepAt ref =
      (env.received s moment args).stepAt ref := by
    rw [hprepares.object, if_neg]
    rintro ⟨-, horphan⟩
    rw [(hrstored.index.mem_orphanedSteps.mp horphan).2.1] at hstopped
    cases hstopped
  cases hworks with
  | refused => rfl
  | failed _ _ _ hgreets _ => rw [hgreets.stepAt, hranked]
  | @served counted t pending work _ henabled _ hgreets hhands =>
      have hnot : ref ∉ ((env.ranked s moment args).selectWork args env.config moment.now
          ((env.received s moment args).lostStep args)).picks := by
        intro hpick
        obtain ⟨-, hwaits | ⟨-, hruns, -⟩⟩ := picks_filed env moment args ref hsound.stored
          hsound.retriable henabled hlooks hpick
        · exact hpending (hranked ▸ hwaits)
        · rw [hranked] at hruns
          rw [hruns] at hstopped
          cases hstopped
      have hkept : ∀ {change : Step → Step} {refs : List Ref}, Hands change refs counted t →
          ref ∉ refs → t.stepAt ref = (env.received s moment args).stepAt ref := by
        intro change refs hands hnot
        rw [hands.object, if_neg hnot, hgreets.stepAt, hranked]
      cases hhands with
      | nothing => rw [hgreets.stepAt, hranked]
      | single hbest hsize hands =>
          rw [Selection.picks, if_neg hsize, hbest] at hnot
          exact hkept hands hnot
      | batch hsize hids hands =>
          rw [Selection.picks, if_pos hsize] at hnot
          exact hkept hands hnot

/-- `set_status` on another step does not touch a step that runs in no batch. -/
theorem settled_of_ne {config : Option Config} {now : Time} {target : Ref} {newStatus : Status}
    (hne : ref ≠ target) (hbatch : (s.stepAt ref).status ≠ .batchRunning) :
    s.settled config now target newStatus ref = s.stepAt ref := by
  unfold settled
  rw [if_neg hne, if_neg fun hreleases => hbatch hreleases.2.2.2.1]

/-- `add_step` and a disabled step. -/
theorem AddsStep.disabled {config : Config} {args : AddStepArgs} {outcome : Except Raised Unit}
    (hstored : s.Stored) (hfiled : s.Filed ref) (hdisabled : (s.stepAt ref).DisabledSince since)
    (hleaves : (Request.addStep args).leavesDisabled (s.stepAt ref).id = true)
    (hadds : AddsStep config moment args (s.receiveStep config moment args) outcome t) :
    (t.stepAt ref).DisabledSince since := by
  have hreceipt := hstored.receipt config moment args
  have hlt := hstored.filed_lt hfiled
  have hold := hreceipt.stepAt ref hlt
  have hreceived : ((s.receiveStep config moment args).stepAt ref).DisabledSince since := by
    rw [hold]
    exact hdisabled
  have hrlt := hlt.trans_le hreceipt.nextRef_le
  generalize s.receiveStep config moment args = received at *
  cases hadds with
  | dropped => exact hreceived
  | @accepted target t hget hclaim hstarts haccepts =>
      by_cases href : ref = target
      · subst href
        have hid : args.stepId = (s.stepAt ref).id := by
          rw [← hold]
          exact (hreceipt.stored.index.step_id hget).symm
        have hnew : args.newStatus ≠ .done ∧ args.newStatus ≠ .disabled := by
          simp only [Request.leavesDisabled, hid, bne_self_eq_false, Bool.false_or,
            Bool.and_eq_true, bne_iff_ne] at hleaves
          unfold AddStepArgs.newStatus
          split
          · exact ⟨by decide, by decide⟩
          · exact hleaves
        have hopened : (received.openedStep moment args ref).DisabledSince since := by
          obtain ⟨-, -, hstatus, -, -, hdisable, -⟩ :=
            openedStep_plan_fields received moment args ref
          exact hreceived.congr hstatus hdisable
        have hreported : (received.openedStep moment args ref).report config moment args =
            received.openedStep moment args ref := by
          unfold Step.report
          rw [Step.settle_of_ignores _ _ _ _ (hopened.ignores hnew.1 hnew.2), ite_self]
        have htarget := haccepts.target
        rw [hreported] at htarget
        exact hopened.congr (congrArg Step.status htarget :)
          (congrArg Step.schedulerDisableTime htarget :)
      · have hcore := haccepts.other ref hrlt href
        rw [if_neg] at hcore
        · exact hreceived.congr (congrArg Step.status hcore :)
            (congrArg Step.schedulerDisableTime hcore :)
        · rintro ⟨-, -, hbatch, -⟩
          rw [hreceived.1] at hbatch
          cases hbatch
  | failed =>
      simp only [stepAt_updateStep, joinStep]
      split <;> exact hreceived.congr rfl rfl

/-- Requests of users, and quiet ones. -/
theorem Handles.disabled {event : Event} {outcome : Except Raised Response} (hsound : s.Sound)
    (hhandles : Handles env s event outcome t) (hfiled : s.Filed ref)
    (hdisabled : (s.stepAt ref).DisabledSince since)
    (hleaves : event.request.leavesDisabled (s.stepAt ref).id = true)
    (hprune : event.request ≠ .prune) (hwork : ∀ args, event.request ≠ .getWork args) :
    (t.stepAt ref).DisabledSince since := by
  have hbatch : (s.stepAt ref).status ≠ .batchRunning := by
    rw [hdisabled.1]
    decide
  have hother : ∀ {id : StepId} {target : Ref}, s.getStep id = some target →
      id ≠ (s.stepAt ref).id → ref ≠ target := by
    rintro id target hget hne rfl
    exact hne (hsound.index.step_id hget).symm
  cases hhandles with
  | serves hserves =>
      cases hserves with
      | adds hadds => exact hadds.disabled hsound.stored hfiled hdisabled hleaves
      | works => exact absurd rfl (hwork _)
      | prunes => exact absurd rfl hprune
      | rests _ hrests =>
          exact hdisabled.congr (hrests.status ref)
            (congrArg Step.schedulerDisableTime (hrests.life ref) :)
  | marks hget hsettles =>
      rw [hsettles.object, settled_of_ne (hother hget (bne_iff_ne.mp hleaves)) hbatch]
      exact hdisabled
  | @forgives _ _ target _ hget hfailed hsettles =>
      have hne : ref ≠ target := by
        rintro rfl
        rw [hdisabled.1] at hfailed
        cases hfailed
      rw [hsettles.object, settled_of_ne hne hbatch]
      exact hdisabled
  | reEnables hget _ hreEnables =>
      rw [hreEnables.object, if_neg (hother hget (bne_iff_ne.mp hleaves))]
      exact hdisabled
  | idle | dumps => exact hdisabled
  | disables =>
      rw [stepAt_disableWorker hsound.index]
      split <;> exact hdisabled
  | loads => cases hleaves

/-- Objects keep their ids, and only the state file brings a row back. -/
theorem filed_after {event : Event} (hload : event.request ≠ .load) (hlt : ref < s.nextRef) :
    ref < (env.after s event).nextRef ∧
      ((env.after s event).stepAt ref).id = (s.stepAt ref).id ∧
      ((env.after s event).Filed ref → s.Filed ref) := by
  obtain ⟨moment, request⟩ := event
  by_cases hdump : request = .dump
  · subst hdump
    exact ⟨hlt, rfl, fun h => h⟩
  · obtain ⟨-, hgrows, -⟩ := serve_grows env moment ⟨hload, hdump⟩ s trivial
    exact ⟨hlt.trans_le hgrows.nextRef_le, hgrows.id ref hlt, Grows.filed_back hgrows hlt⟩

end Scheduler

open Scheduler

namespace Env

variable (env : Env) {s : Scheduler} {ref : Ref} {since : Time}

/-- The request prunes, at a time when a disable from the given time on has expired. -/
def expires (since : Time) (event : Event) : Bool :=
  (match event.request with
    | .prune => true
    | .getWork _ => env.config.pruneOnGetWork
    | _ => false) &&
  decide (env.config.disablePersist < event.moment.now - since)

/-- What a request makes of a step that the scheduler disabled. -/
theorem after_disabled {event : Event} (hsound : s.Sound)
    (hhands : HandsOutFiledSteps env s event) (hfiled : s.Filed ref)
    (hdisabled : (s.stepAt ref).DisabledSince since)
    (hleaves : event.request.leavesDisabled (s.stepAt ref).id = true) :
    if env.expires since event = true then ((env.after s event).stepAt ref).Forgiven
    else ((env.after s event).stepAt ref).DisabledSince since := by
  obtain ⟨moment, request⟩ := event
  obtain ⟨pruned, hrun, hprunes⟩ :=
    prune_spec hsound.stored hsound.retriable env.config moment.now
  have hpruned := prune_disabled hsound hfiled hdisabled hrun
  by_cases hprune : request = .prune
  · subst hprune
    have hafter : env.after s ⟨moment, .prune⟩ = pruned :=
      congrArg Prod.snd (exec_reply (fun _ => Response.nothing) hrun)
    simp only [hafter, expires, Bool.true_and, decide_eq_true_eq]
    split_ifs at hpruned ⊢
    · exact hpruned.2
    · exact hpruned
  by_cases hwork : ∃ args, request = .getWork args
  · obtain ⟨args, rfl⟩ := hwork
    obtain ⟨outcome, hworks, -⟩ := hsound.after_getWork env moment hhands
    have hidle : ∀ {status : Status}, ((env.received s moment args).stepAt ref).status = status →
        status ≠ .pending → status.isRunning = false →
        (env.after s ⟨moment, .getWork args⟩).stepAt ref =
          (env.received s moment args).stepAt ref := by
      rintro status rfl hpending hstopped
      exact hworks.idle hsound hhands hpending hstopped
    cases hconfig : env.config.pruneOnGetWork with
    | true =>
        obtain ⟨u, hrun', hreceived⟩ :=
          received_pruned hsound.stored hsound.retriable env moment args hconfig
        obtain rfl : pruned = u := (Prod.mk.inj (hrun.symm.trans hrun')).2
        have hobject : (env.received s moment args).stepAt ref = pruned.stepAt ref := by
          rw [hreceived]
          exact (greets_updateWorker pruned moment.now args.worker true).stepAt ref
        simp only [expires, hconfig, Bool.true_and, decide_eq_true_eq]
        split_ifs at hpruned ⊢
        · rw [hidle (hobject ▸ hpruned.1) (by decide) rfl, hobject]
          exact hpruned.2
        · rw [hidle (hobject ▸ hpruned.1) (by decide) rfl, hobject]
          exact hpruned
    | false =>
        have hobject : (env.received s moment args).stepAt ref = s.stepAt ref := by
          rw [received_unpruned s env moment args hconfig]
          exact (greets_updateWorker s moment.now args.worker true).stepAt ref
        rw [if_neg (by simp [expires, hconfig]), hidle (hobject ▸ hdisabled.1) (by decide) rfl,
          hobject]
        exact hdisabled
  · have hnot : env.expires since ⟨moment, request⟩ = false := by
      cases request with
      | prune => exact absurd rfl hprune
      | getWork args => exact absurd ⟨args, rfl⟩ hwork
      | _ => rfl
    rw [if_neg (by rw [hnot]; decide)]
    exact (hsound.handles hhands).disabled hsound hfiled hdisabled hleaves hprune
      fun args h => hwork ⟨args, h⟩

/-- Along any requests that do not end it themselves, a disable lasts until the first `prune`
after it has expired, which forgives the step. -/
theorem disable_lasts_until {resources : Resources} {events later : List Event}
    (hhands : Along env.after (HandsOutFiledSteps env) (.initial resources) (events ++ later))
    (hfiled : (env.run (.initial resources) events).Filed ref)
    (hdisabled : ((env.run (.initial resources) events).stepAt ref).DisabledSince since)
    (hleaves : ∀ event ∈ later, event.request.leavesDisabled
      ((env.run (.initial resources) events).stepAt ref).id = true) :
    Until env.after (fun s => s.Filed ref → (s.stepAt ref).DisabledSince since)
      (fun event => env.expires since event = true)
      (fun s event => s.Filed ref → ((env.after s event).stepAt ref).Forgiven)
      (env.run (.initial resources) events) later := by
  obtain ⟨hbefore, hlater⟩ := (along_append events later).mp hhands
  set start := env.run (.initial resources) events with hstart
  have hlasting : Lasting Sound start :=
    runAll_invariant env.after (HandsOutFiledSteps env) (Lasting Sound)
      (fun _ _ hlasting hevent => (Sound.after hlasting hevent).1) (initial_sound resources) hbefore
  refine until_of_invariant
    (fun s => Lasting Sound s ∧ ref < s.nextRef ∧ (s.stepAt ref).id = (start.stepAt ref).id ∧
      (s.Filed ref → (s.stepAt ref).DisabledSince since))
    (fun s h => h.2.2.2) ?_ ?_
    ⟨hlasting, hlasting.1.stored.filed_lt hfiled, rfl, fun _ => hdisabled⟩
    (hlater.and_forall hleaves)
  · rintro s event ⟨hlasting, hlt, hid, hkept⟩ ⟨hhands, hleaves⟩ hlasts
    have hload : event.request ≠ .load := by
      intro hload
      rw [hload] at hleaves
      cases hleaves
    obtain ⟨hlt', hid', hback⟩ := @filed_after s env ref event hload hlt
    refine ⟨(Sound.after hlasting hhands).1, hlt', hid'.trans hid, fun hfiled => ?_⟩
    have hafter := env.after_disabled hlasting.1 hhands (hback hfiled) (hkept (hback hfiled))
      (hid ▸ hleaves)
    rw [if_neg hlasts] at hafter
    exact hafter
  · rintro s event ⟨hlasting, hlt, hid, hkept⟩ ⟨hhands, hleaves⟩ hexpires hfiled
    have hafter := env.after_disabled hlasting.1 hhands hfiled (hkept hfiled) (hid ▸ hleaves)
    rw [if_pos hexpires] at hafter
    exact hafter

end Env

/-! ## A disable that outlasts its time -/

def thirdWorker : WorkerId := ⟨"w3", by decide⟩

/-- A step of the family, scheduled by an assistant. -/
def assistsMember (id : StepId) (value : String) : Request :=
  .addStep
    { worker := firstWorker, stepId := id, family := "F", params := some (Dict.set ∅ "p" value)
      batchable := some true, assistant := true }

def asksForWork (now : Time) : Event :=
  requestAt now (.getWork { worker := firstWorker, currentSteps := some [] })

/-- An assistant outlives its step, which another worker schedules anew.  Then a step is
disabled after its first failure. -/
def disablingRun : List Event :=
  [ requestAt 1 (.addStepBatcher firstWorker "F" ⟨["p"], none⟩),
    requestAt 2 (assistsMember "a" "1"),
    requestAt 3 .prune,
    requestAt 600 (.ping firstWorker),
    requestAt 603 .prune,
    requestAt 604 (schedules secondWorker "a"),
    requestAt 604 (schedules secondWorker "c"),
    requestAt 605 (assistsMember "b" "2"),
    requestAt 606 (.addStep
      { worker := secondWorker, stepId := "x", retryPolicy := { retryCount := some 1 } }),
    requestAt 607 (.addStep { worker := secondWorker, stepId := "x", status := .failed }) ]

/-- The assistant gets batches with its removed step and loses them, while a third worker
runs the step that took its place, and goes away. -/
def losingRun : List Event :=
  [ asksForWork 608,
    requestAt 609 (.addStep { worker := thirdWorker, stepId := "a", status := .running }),
    requestAt 610 .pause,
    asksForWork 611,
    requestAt 612 (.addStep
      { worker := thirdWorker, stepId := "a", status := .batchRunning, newDeps := some ["d"] }),
    requestAt 613 .unpause,
    asksForWork 614,
    requestAt 615 .pause,
    asksForWork 616,
    requestAt 90000 .prune ]

/-- The disable has expired, but `prune` fails before it comes to the disabled step. -/
theorem disable_outlasts_its_time :
    Timely (disablingRun ++ losingRun) ∧
      (batchEnv.run (.initial ∅) disablingRun).Filed 4 ∧
      ((batchEnv.run (.initial ∅) disablingRun).stepAt 4).DisabledSince 607 ∧
      (∀ event ∈ losingRun, event.request.leavesDisabled
        ((batchEnv.run (.initial ∅) disablingRun).stepAt 4).id = true) ∧
      ¬Until batchEnv.after (fun s => s.Filed 4 → (s.stepAt 4).DisabledSince 607)
        (fun event => batchEnv.expires 607 event = true)
        (fun s event => s.Filed 4 → ((batchEnv.after s event).stepAt 4).Forgiven)
        (batchEnv.run (.initial ∅) disablingRun) losingRun := by
  decide +kernel

/-- A step that is disabled after its first failure. -/
def failingRun : List Event :=
  [ requestAt 1 (.addStep
      { worker := firstWorker, stepId := "x", retryPolicy := { retryCount := some 1 } }),
    requestAt 2 (.addStep { worker := firstWorker, stepId := "x", status := .failed }) ]

/-- It is scheduled and claimed again, to no effect, until its time has come. -/
def retryingRun : List Event :=
  [ requestAt 3 (schedules secondWorker "x"),
    requestAt 4 (.addStep { worker := secondWorker, stepId := "x", status := .running }),
    requestAt 5 (.forgiveFailures "x"),
    requestAt 40 .prune,
    requestAt 90000 .prune ]

theorem failing_step_is_forgiven :
    Until defaultEnv.after (fun s => s.Filed 0 → (s.stepAt 0).DisabledSince 2)
      (fun event => defaultEnv.expires 2 event = true)
      (fun s event => s.Filed 0 → ((defaultEnv.after s event).stepAt 0).Forgiven)
      (defaultEnv.run (.initial ∅) failingRun) retryingRun :=
  defaultEnv.disable_lasts_until (by decide +kernel) (by decide +kernel) (by decide +kernel)
    (by decide +kernel)

end Trun
