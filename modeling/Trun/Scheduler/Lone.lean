import Trun.Scheduler.Repeating

/-!
# A scheduler with one worker

What a scheduler comes to that one enabled worker uses alone, for steps without
resources and batches: a board of cards, on which the worker's own steps become
ready, are started and get their results.
-/

namespace Trun

open Program

/-- A row of the step table as the worker uses it. -/
structure Card where
  status : Status
  deps : Finset StepId
  /-- The worker is one that can run the step. -/
  mine : Bool
  deriving DecidableEq

abbrev Board := StepId → Option Card

namespace Board

variable {board : Board} {id other : StepId} {card : Card}

/-- The dependency is on the board with the status `DONE`. -/
def Done (board : Board) (id : StepId) : Prop :=
  ∃ card, board id = some card ∧ card.status = .done

/-- The worker may run the step, which waits for nothing. -/
def Ready (board : Board) (id : StepId) : Prop :=
  ∃ card, board id = some card ∧ card.status = .pending ∧ card.mine = true ∧
    ∀ dep ∈ card.deps, board.Done dep

def start (board : Board) (id : StepId) : Board := fun other =>
  if other = id then (board id).map fun card => { card with status := .running }
  else board other

/-- A card is put down, with empty ones for its dependencies where there are none. -/
def place (board : Board) (id : StepId) (card : Card) : Board := fun other =>
  if other = id then some card
  else if board other = none ∧ other ∈ card.deps then some ⟨.unknown, ∅, false⟩
  else board other

@[simp] theorem start_self : board.start id id =
    (board id).map fun card => { card with status := .running } := if_pos rfl

theorem start_other (hother : other ≠ id) : board.start id other = board other := if_neg hother

@[simp] theorem place_self : board.place id card id = some card := if_pos rfl

theorem place_other (hother : other ≠ id) : board.place id card other =
    if board other = none ∧ other ∈ card.deps then some ⟨.unknown, ∅, false⟩
    else board other := if_neg hother

theorem place_kept (hother : other ≠ id) {kept : Card} (hkept : board other = some kept) :
    board.place id card other = some kept := by
  rw [place_other hother, if_neg (by simp [hkept]), hkept]

end Board

namespace AddStepArgs

/-- The card with which a step starts that has no row yet. -/
def freshCard (args : AddStepArgs) : Card := ⟨.pending, (args.deps.getD []).toFinset, false⟩

/-- The dependencies that a request leaves on a card. -/
def depsOn (args : AddStepArgs) (card : Card) : Finset StepId :=
  (args.deps.elim card.deps List.toFinset) ∪ (args.newDeps.getD []).toFinset

/-- What a request makes of a card, with the status that results. -/
def cardOn (args : AddStepArgs) (card : Card) (status : Status) : Card where
  status := status
  deps := args.depsOn card
  mine := (args.runnable && args.status != .failed) || card.mine

/-- A worker reports on a step without resources and batches. -/
structure Plain (args : AddStepArgs) (worker : WorkerId) : Prop where
  worker : args.worker = worker
  assistant : args.assistant = false
  batchId : args.batchId = none
  batchable : args.batchable ≠ some true
  declared : args.declared = ∅
  status : args.status = .pending ∨ args.status = .done ∨ args.status = .failed ∨
    args.status = .unknown

end AddStepArgs

/-- The scheduler takes over what the request says about the step. -/
structure Card.Accepts (card : Card) (args : AddStepArgs) : Prop where
  enabled : card.status ≠ .disabled
  lasting : card.status = .done → args.status ≠ .pending
  running : card.status = .running → args.startedARun = true ∨ args.hasNewDeps = true

namespace Step

/-- The row of the step. -/
def card (step : Step) (worker : WorkerId) : Card where
  status := step.status
  deps := step.deps.elems.toFinset
  mine := decide (worker ∈ step.workers)

theorem card_of_core {a b : Step} (hcore : a.core = b.core) (worker : WorkerId) :
    a.card worker = b.card worker := by
  have hstatus : a.status = b.status := (congrArg Step.status hcore :)
  have hdeps : a.deps = b.deps := (congrArg Step.deps hcore :)
  have hworkers : a.workers = b.workers := (congrArg Step.workers hcore :)
  simp only [card, hstatus, hdeps, hworkers]

/-- The step has neither resources nor a batch, and nobody else runs it. -/
structure Plain (step : Step) (worker : WorkerId) : Prop where
  resources : step.resources = ∅
  batchable : step.batchable = false
  batchId : step.batchId = none
  status : step.status ≠ .batchRunning
  owner : step.status = .running → step.workerRunning = some worker

theorem Plain.of_core {a b : Step} {worker : WorkerId} (ha : a.Plain worker)
    (hcore : b.core = a.core) : b.Plain worker := by
  have hresources : b.resources = a.resources := (congrArg Step.resources hcore :)
  have hbatchable : b.batchable = a.batchable := (congrArg Step.batchable hcore :)
  have hbatchId : b.batchId = a.batchId := (congrArg Step.batchId hcore :)
  have hstatus : b.status = a.status := (congrArg Step.status hcore :)
  have howner : b.workerRunning = a.workerRunning := (congrArg Step.workerRunning hcore :)
  constructor
  · exact hresources.trans ha.resources
  · exact hbatchable.trans ha.batchable
  · exact hbatchId.trans ha.batchId
  · exact hstatus ▸ ha.status
  · rw [hstatus, howner]
    exact ha.owner

end Step

namespace Scheduler

variable {s t : Scheduler} {worker : WorkerId} {ref : Ref} {id : StepId}

def board (s : Scheduler) (worker : WorkerId) : Board := fun id =>
  (s.getStep id).map fun ref => (s.stepAt ref).card worker

theorem board_of_get (hget : s.getStep id = some ref) :
    s.board worker id = some ((s.stepAt ref).card worker) := by
  rw [board, hget]
  rfl

theorem board_eq_none : s.board worker id = none ↔ s.getStep id = none := by
  simp [board]

theorem board_eq_some {card : Card} : s.board worker id = some card ↔
    ∃ ref, s.getStep id = some ref ∧ (s.stepAt ref).card worker = card := by
  simp [board]

/-- One enabled worker uses the scheduler, for plain steps. -/
structure Lone (worker : WorkerId) (s : Scheduler) : Prop where
  sound : s.Sound
  active : s.paused = false
  enabled : (s.workerAt worker).enabled = true
  /-- No step has been removed. -/
  listed : ∀ {other ref}, ref ∈ (s.workerAt other).steps → s.Filed ref
  plain : ∀ {ref}, s.Filed ref → (s.stepAt ref).Plain worker

theorem initial_lone (worker : WorkerId) (resources : Resources) :
    Lone worker (.initial resources) where
  sound := (initial_sound resources).1
  active := rfl
  enabled := rfl
  listed := nofun
  plain := nofun

theorem Lone.refers (hlone : Lone worker s) (hrefers : s.Refers ref) : s.Filed ref := by
  rcases hrefers with hfiled | ⟨other, hlisted⟩
  · exact hfiled
  · exact hlone.listed hlisted

/-- States with the same rows and steps. -/
theorem Lone.congr (hlone : Lone worker s) (hsound : t.Sound) (hpaused : t.paused = s.paused)
    (hworker : ∀ id, (t.workerAt id).steps = (s.workerAt id).steps ∧
      (t.workerAt id).disabled = (s.workerAt id).disabled)
    (hget : ∀ id, t.getStep id = s.getStep id) (hstep : ∀ ref, t.stepAt ref = s.stepAt ref) :
    Lone worker t ∧ t.board worker = s.board worker := by
  have hfiled : ∀ ref, t.Filed ref ↔ s.Filed ref := fun ref => by
    rw [Filed, Filed, hstep, hget]
  constructor
  · constructor
    · exact hsound
    · exact hpaused.trans hlone.active
    · rw [Worker.enabled, (hworker worker).2]
      exact hlone.enabled
    · intro other ref hlisted
      rw [(hworker other).1] at hlisted
      exact (hfiled ref).mpr (hlone.listed hlisted)
    · intro ref h
      rw [hstep]
      exact hlone.plain ((hfiled ref).mp h)
  · funext id
    simp only [board, hget, hstep]

theorem Lone.greets (hlone : Lone worker s) (hgreets : Greets s t) :
    Lone worker t ∧ t.board worker = s.board worker :=
  hlone.congr (hlone.sound.greets hgreets) hgreets.paused (fun id => (hgreets.worker id).2)
    hgreets.getStep hgreets.stepAt

theorem Lone.addWorker (hlone : Lone worker s) (env : Env) (moment : Moment) (other : WorkerId)
    (info : WorkerInfo) :
    env.outcome s ⟨moment, .addWorker other info⟩ = .ok .nothing ∧
      Lone worker (env.after s ⟨moment, .addWorker other info⟩) ∧
      (env.after s ⟨moment, .addWorker other info⟩).board worker = s.board worker :=
  ⟨rfl, hlone.greets (greets_addWorker s moment.now other info)⟩

theorem Lone.addStepBatcher (hlone : Lone worker s) (env : Env) (moment : Moment)
    (other : WorkerId) (family : Family) (batcher : Batcher) :
    env.outcome s ⟨moment, .addStepBatcher other family batcher⟩ = .ok .nothing ∧
      Lone worker (env.after s ⟨moment, .addStepBatcher other family batcher⟩) ∧
      (env.after s ⟨moment, .addStepBatcher other family batcher⟩).board worker =
        s.board worker := by
  obtain ⟨hsound, -⟩ := hlone.sound.serve_meets env moment
    (rfl : (Request.addStepBatcher other family batcher).isOrdinary = true)
  exact ⟨rfl, hlone.congr hsound rfl (fun _ => ⟨rfl, rfl⟩) (fun _ => rfl) fun _ => rfl⟩

/-! ## Adding a step -/

section Adding

variable {config : Config} {moment : Moment} {args : AddStepArgs}

theorem receiveStep_of_enabled (config : Config) (moment : Moment)
    (henabled : (s.workerAt args.worker).enabled = true) :
    s.receiveStep config moment args = (s.updateWorker moment.now args.worker false).setdefaultStep
      (args.defaultStep config moment) := by
  have hgreets := greets_updateWorker s moment.now args.worker false
  have hstill : ((s.updateWorker moment.now args.worker false).workerAt
      args.worker).enabled = true := by
    rw [Worker.enabled, (hgreets.worker args.worker).2.2]
    exact henabled
  unfold receiveStep
  dsimp only
  rw [if_pos hstill]

/-- An enabled worker creates the row that is not there. -/
theorem receiveStep_row (config : Config) (moment : Moment)
    (henabled : (s.workerAt args.worker).enabled = true) :
    ∃ ref, (s.receiveStep config moment args).getStep args.stepId = some ref := by
  rw [receiveStep_of_enabled config moment henabled]
  set greeted := s.updateWorker moment.now args.worker false
  cases hget : greeted.getStep (args.defaultStep config moment).id with
  | none =>
      exact ⟨_, (getStep_setdefaultStep hget _).trans (if_pos rfl)⟩
  | some ref =>
      refine ⟨ref, ?_⟩
      have hinsert : greeted.insertStep (args.defaultStep config moment) = greeted := by
        simp only [insertStep, hget]
      simp only [setdefaultStep, hinsert, hget]
      exact hget

theorem card_defaultStep (config : Config) (moment : Moment) (args : AddStepArgs)
    (worker : WorkerId) : (args.defaultStep config moment).card worker = args.freshCard := by
  simp only [Step.card, AddStepArgs.defaultStep, Step.make, AddStepArgs.freshCard, Card.mk.injEq,
    true_and]
  refine ⟨Finset.ext fun id => ?_, rfl⟩
  rw [List.mem_toFinset, List.mem_toFinset, ← OrderedSet.mem_def, AddStepArgs.idSet,
    OrderedSet.mem_rehash, OrderedSet.mem_ofList]

theorem Lone.receiveStep (hlone : Lone worker s) (config : Config) (moment : Moment)
    (hplain : args.Plain worker) :
    Lone worker (s.receiveStep config moment args) ∧
      (s.receiveStep config moment args).board worker = fun id =>
        if id = args.stepId then some ((s.board worker id).getD args.freshCard)
        else s.board worker id := by
  have hreceipt := hlone.sound.stored.receipt config moment args
  have henabled : (s.workerAt args.worker).enabled = true := by
    rw [hplain.worker]
    exact hlone.enabled
  obtain ⟨ref, hrow⟩ := receiveStep_row config moment henabled
  set received := s.receiveStep config moment args with hreceived
  have hold : ∀ {id other}, s.getStep id = some other →
      (received.stepAt other) = s.stepAt other := fun hget =>
    hreceipt.stepAt _ (hlone.sound.stored.allocated hget)
  have hfresh : (args.defaultStep config moment).Plain worker :=
    ⟨hplain.declared, rfl, rfl, nofun, nofun⟩
  constructor
  · constructor
    · exact hlone.sound.receiveStep config moment args
    · exact hreceipt.paused.trans hlone.active
    · exact (hreceipt.enabled worker).trans hlone.enabled
    · intro other listed hlisted
      rw [(hreceipt.worker other).1] at hlisted
      have hfiled := hlone.listed hlisted
      rw [Filed, hold hfiled]
      exact hreceipt.keeps hfiled
    · intro other hfiled
      rcases hreceipt.filed hlone.sound.stored hfiled with hbefore | ⟨-, hnew⟩
      · rw [hold hbefore]
        exact hlone.plain hbefore
      · rw [hnew]
        exact hfresh
  · funext id
    by_cases hid : id = args.stepId
    · subst hid
      rw [if_pos rfl, board_of_get hrow]
      rcases hreceipt.fresh hrow with hbefore | ⟨-, hnone, -, hnew⟩
      · rw [board_of_get hbefore, hold hbefore]
        rfl
      · rw [board_eq_none.mpr hnone, hnew, card_defaultStep]
        rfl
    · rw [if_neg hid]
      cases hget : s.getStep id with
      | none =>
          rw [board_eq_none.mpr hget, board_eq_none]
          cases hafter : received.getStep id with
          | none => rfl
          | some other =>
              rcases hreceipt.fresh hafter with hbefore | ⟨heq, -⟩
              · rw [hget] at hbefore
                cases hbefore
              · exact absurd heq hid
      | some other => rw [board_of_get hget, board_of_get (hreceipt.keeps hget), hold hget]

theorem openedStep_batchable (s : Scheduler) (moment : Moment) (args : AddStepArgs) (ref : Ref) :
    (s.openedStep moment args ref).batchable =
      args.batchable.getD (s.stepAt ref).batchable := by
  simp only [openedStep, Step.described, claimStep, Step.claim]
  split <;> simp [joinStep, Step.joinBatch, Step.fillPlaceholder]

/-- The step as the report on it leaves it. -/
structure Reported (args : AddStepArgs) (worker : WorkerId) (before after : Step) : Prop where
  status : after.status = args.status ∨ (args.status = .failed ∧ after.status = .disabled)
  deps : after.deps = before.deps
  workers : after.workers = before.workers
  batchable : after.batchable = false
  batchId : after.batchId = none

theorem Lone.reported (hlone : Lone worker s) (config : Config) (moment : Moment)
    (hplain : args.Plain worker) (hfiled : s.Filed ref)
    (hcard : ((s.stepAt ref).card worker).Accepts args) :
    Reported args worker (s.stepAt ref)
        ((s.openedStep moment args ref).report config moment args) ∧
      ∀ other, ¬s.PassesOn moment args ref other := by
  obtain ⟨-, hworkers, hstatus, -, hdeps, -, hbatchId⟩ := openedStep_plan_fields s moment args ref
  have howner := openedStep_workerRunning s moment args ref
  have hbatchable := openedStep_batchable s moment args ref
  set opened := s.openedStep moment args ref with hopened
  have hstep := hlone.plain hfiled
  have hnotRunning : args.status ≠ .running := by
    rcases hplain.status with h | h | h | h <;> simp [h]
  have hnotDisabled : args.status ≠ .disabled := by
    rcases hplain.status with h | h | h | h <;> simp [h]
  have hnew : args.newStatus = args.status := by
    rcases hplain.status with h | h | h | h <;> simp [AddStepArgs.newStatus, h]
  rw [hplain.batchId, hstep.batchId] at hbatchId
  rw [if_neg fun h => hnotRunning h.1] at howner
  have hbatchless : opened.batchId = none := hbatchId
  have hreleases : opened.releasesBatch args.newStatus = false := by
    simp [Step.releasesBatch, hbatchless]
  have hignores : opened.ignores args.newStatus = false := by
    have henabled : opened.status ≠ .disabled := hstatus ▸ hcard.enabled
    simp [Step.ignores, hnew, hnotDisabled, henabled]
  have haccepted : opened.acceptsReport args = true := by
    unfold Step.acceptsReport
    rw [howner, hstatus]
    by_cases hrunning : (s.stepAt ref).status = .running
    · rw [hstep.owner hrunning, hplain.worker]
      rcases hcard.running hrunning with h | h <;> simp [h]
    · have hquiet : (s.stepAt ref).status.isRunning = false := by
        rw [Bool.eq_false_iff, ne_eq, Status.isRunning_iff]
        rintro (h | h)
        · exact hrunning h
        · exact hstep.status h
      simp [hquiet]
  have hunbatched : opened.batchable = false := by
    rw [hbatchable, hstep.batchable]
    cases hflag : args.batchable with
    | none => rfl
    | some flag =>
        cases flag with
        | true => exact absurd hflag hplain.batchable
        | false => rfl
  have hreport : opened.report config moment args =
      opened.settle (some config) moment.now args.newStatus := if_pos haccepted
  have hplan := Step.settle_plan opened (some config) moment.now args.newStatus
  constructor
  · rw [hreport]
    constructor
    · rw [← hnew]
      exact Step.settle_status_cases _ _ _ _ hignores
    · exact (congrArg Step.deps hplan : _).trans hdeps
    · exact (congrArg Step.workers hplan : _).trans hworkers
    · exact (congrArg Step.batchable hplan : _).trans hunbatched
    · rw [Step.settle_batchId, hreleases, if_neg (by simp), hbatchless]
  · rintro other ⟨hpasses, -⟩
    rw [← hopened, Step.passesOn, hreleases, Bool.and_false] at hpasses
    cases hpasses

theorem mem_declare_deps (step : Step) (moment : Moment) (args : AddStepArgs) (worker : WorkerId)
    (id : StepId) : id ∈ (step.declare moment args).deps ↔ id ∈ args.depsOn (step.card worker) := by
  simp only [Step.declare, AddStepArgs.depsOn, Step.card, Finset.mem_union]
  cases args.deps <;> cases args.newDeps <;>
    simp [AddStepArgs.idSet, ← OrderedSet.mem_def, or_comm]

/-- The card of the step, and the ties that the request leaves. -/
theorem Lone.accepts_target (hlone : Lone worker s) (hplain : args.Plain worker)
    (hfiled : s.Filed ref) (hcard : ((s.stepAt ref).card worker).Accepts args)
    (haccepts : Accepts config moment args ref true s t) :
    (t.stepAt ref).Plain worker ∧ ∃ status,
      (status = args.status ∨ (args.status = .failed ∧ status = .disabled)) ∧
        (t.stepAt ref).card worker = args.cardOn ((s.stepAt ref).card worker) status := by
  obtain ⟨hreported, -⟩ := hlone.reported config moment hplain hfiled hcard
  have htarget := haccepts.target
  have hworkers := haccepts.target_workers
  set reported := (s.openedStep moment args ref).report config moment args
  have hstatus : (t.stepAt ref).status = reported.status := (congrArg Step.status htarget :)
  have hresources : (t.stepAt ref).resources = args.declared :=
    (congrArg Step.resources htarget :)
  have hbatchable : (t.stepAt ref).batchable = reported.batchable :=
    (congrArg Step.batchable htarget :)
  have hbatchId : (t.stepAt ref).batchId = reported.batchId := (congrArg Step.batchId htarget :)
  have hdeps : (t.stepAt ref).deps = (reported.declare moment args).deps :=
    (congrArg Step.deps htarget :)
  have hquiet : ∀ status, status.isRunning = true →
      ¬(status = args.status ∨ (args.status = .failed ∧ status = .disabled)) := by
    rintro status hrunning (rfl | ⟨-, rfl⟩)
    · rcases hplain.status with h | h | h | h <;> rw [h] at hrunning <;> cases hrunning
    · cases hrunning
  constructor
  · constructor
    · exact hresources.trans hplain.declared
    · exact hbatchable.trans hreported.batchable
    · exact hbatchId.trans hreported.batchId
    · rintro h
      rw [hstatus] at h
      exact hquiet _ (by rw [h]; rfl) hreported.status
    · intro h
      rw [hstatus] at h
      exact absurd hreported.status (hquiet _ (by rw [h]; rfl))
  · refine ⟨reported.status, hreported.status, ?_⟩
    simp only [Step.card, AddStepArgs.cardOn, Card.mk.injEq]
    refine ⟨hstatus, Finset.ext fun id => ?_, ?_⟩
    · have hsame : reported.card worker = { (s.stepAt ref).card worker with
          status := reported.status } := by
        simp only [Step.card, hreported.deps, hreported.workers]
      rw [hdeps, List.mem_toFinset, ← OrderedSet.mem_def,
        mem_declare_deps reported moment args worker, hsame]
      rfl
    · rw [hworkers, hplain.worker, AddStepArgs.registers, Bool.and_true]
      cases args.runnable && args.status != .failed with
      | true => simp
      | false => simp

theorem Lone.accepts (hlone : Lone worker s) (hplain : args.Plain worker)
    (hget : s.getStep args.stepId = some ref)
    (hcard : ((s.stepAt ref).card worker).Accepts args)
    (haccepts : Accepts config moment args ref true s t) :
    Lone worker t ∧ ∃ status,
      (status = args.status ∨ (args.status = .failed ∧ status = .disabled)) ∧
        t.board worker = (s.board worker).place args.stepId
          (args.cardOn ((s.stepAt ref).card worker) status) := by
  have hfiled := hlone.sound.index.filed hget
  obtain ⟨hstep, status, hstatus, hsame⟩ := hlone.accepts_target hplain hfiled hcard haccepts
  obtain ⟨-, hnone⟩ := hlone.reported config moment hplain hfiled hcard
  have hafter := haccepts.keeps hget
  have hother : ∀ {id other}, s.getStep id = some other → other ≠ ref →
      (t.stepAt other).core = (s.stepAt other).core := by
    intro id other hrow hne
    rw [haccepts.other other (hlone.sound.stored.allocated hrow) hne, if_neg (hnone other)]
  have hplaceholder : ∀ {id other}, (t.stepAt other).core =
      (placeholder config moment args id).core →
      (t.stepAt other).card worker = ⟨.unknown, ∅, false⟩ ∧ (t.stepAt other).Plain worker := by
    intro id other hcore
    have hempty : (placeholder config moment args id).Plain worker :=
      ⟨rfl, rfl, rfl, nofun, nofun⟩
    refine ⟨?_, hempty.of_core hcore⟩
    rw [Step.card_of_core hcore]
    rfl
  have hholds : args.holds true = true := by
    rw [AddStepArgs.holds, hplain.assistant]
    rfl
  constructor
  · constructor
    · exact hlone.sound.accepts hfiled haccepts
    · exact haccepts.paused.trans hlone.active
    · have hdisabled : (t.workerAt worker).disabled = (s.workerAt worker).disabled := by
        rw [haccepts.workerAt]
        split
        · rename_i h
          rw [h.2]
        · rfl
      rw [Worker.enabled, hdisabled]
      exact hlone.enabled
    · intro other listed hlisted
      have hbefore : s.Filed listed := by
        rw [haccepts.workerAt] at hlisted
        split at hlisted
        · rw [OrderedSet.mem_rehash, OrderedSet.mem_add] at hlisted
          rcases hlisted with rfl | hold
          · exact hfiled
          · exact hlone.listed hold
        · exact hlone.listed hlisted
      by_cases hself : listed = ref
      · subst hself
        exact (hlone.sound.accepts hfiled haccepts).index.filed hafter
      · have hid : (t.stepAt listed).id = (s.stepAt listed).id :=
          (congrArg Step.id (hother hbefore hself) :)
        rw [Filed, hid]
        exact haccepts.keeps hbefore
    · intro other hfiled'
      by_cases hself : other = ref
      · exact hself ▸ hstep
      · rcases haccepts.fresh hfiled' with hbefore | ⟨-, -, -, -, hcore, -⟩
        · have hid := hlone.sound.index.filed hbefore
          exact (hlone.plain hid).of_core (hother hbefore hself)
        · exact (hplaceholder hcore).2
  · refine ⟨status, hstatus, funext fun id => ?_⟩
    by_cases hid : id = args.stepId
    · rw [hid, Board.place_self, board_of_get hafter, hsame]
    · rw [Board.place_other hid]
      cases hrow : s.getStep id with
      | some other =>
          have hne : other ≠ ref := by
            rintro rfl
            exact hid ((hlone.sound.index.step_id hrow).symm.trans
              (hlone.sound.index.step_id hget))
          rw [if_neg (by simp [board_of_get hrow]), board_of_get hrow,
            board_of_get (haccepts.keeps hrow), Step.card_of_core (hother hrow hne)]
      | none =>
          have hdeps : id ∈ (t.stepAt ref).deps ↔
              id ∈ (args.cardOn ((s.stepAt ref).card worker) status).deps := by
            rw [← hsame, Step.card, List.mem_toFinset, OrderedSet.mem_def]
          rw [board_eq_none.mpr hrow]
          by_cases hmem : id ∈ (args.cardOn ((s.stepAt ref).card worker) status).deps
          · obtain ⟨other, hnew⟩ := haccepts.present hholds id (hdeps.mpr hmem)
            rw [if_pos ⟨rfl, hmem⟩, board_of_get hnew]
            rcases haccepts.fresh hnew with hbefore | ⟨-, -, -, -, hcore, -⟩
            · rw [hrow] at hbefore
              cases hbefore
            · exact congrArg some (hplaceholder hcore).1
          · rw [if_neg fun h => hmem h.2, board_eq_none]
            cases hnew : t.getStep id with
            | none => rfl
            | some other =>
                rcases haccepts.fresh hnew with hbefore | ⟨-, hdep, -⟩
                · rw [hrow] at hbefore
                  cases hbefore
                · exact absurd (hdeps.mp hdep) hmem

/-- What the worker says about a step is taken over. -/
theorem Lone.addStep (hlone : Lone worker s) (env : Env) (moment : Moment)
    (hplain : args.Plain worker)
    (hcard : ((s.board worker args.stepId).getD args.freshCard).Accepts args) :
    env.outcome s ⟨moment, .addStep args⟩ = .ok .nothing ∧
      Lone worker (env.after s ⟨moment, .addStep args⟩) ∧
      ∃ status, (status = args.status ∨ (args.status = .failed ∧ status = .disabled)) ∧
        (env.after s ⟨moment, .addStep args⟩).board worker =
          (s.board worker).place args.stepId
            (args.cardOn ((s.board worker args.stepId).getD args.freshCard) status) := by
  obtain ⟨hreceived, hboard⟩ := hlone.receiveStep env.config moment hplain
  obtain ⟨outcome, hadds, houtcome⟩ := hlone.sound.after_addStep env moment args
  have hworker : (s.workerAt args.worker).enabled = true := hplain.worker ▸ hlone.enabled
  obtain ⟨ref, hrow⟩ := receiveStep_row env.config moment hworker
  rw [houtcome]
  generalize env.after s ⟨moment, .addStep args⟩ = t at hadds ⊢
  generalize s.receiveStep env.config moment args = received at *
  have henabled : (received.workerAt args.worker).enabled = true := by
    rw [hplain.worker]
    exact hreceived.enabled
  have hself : (received.stepAt ref).card worker =
      (s.board worker args.stepId).getD args.freshCard := by
    have h := congrFun hboard args.stepId
    rw [if_pos rfl, board_of_get hrow] at h
    exact Option.some.inj h
  have hclaim : (received.stepAt ref).dropsClaim env.config moment args
      (received.workerAt args.worker).enabled = false := by
    rw [henabled]
    unfold Step.dropsClaim
    by_cases hdone : (received.stepAt ref).status = .done
    · have hlasting : args.status ≠ .pending := (hself ▸ hcard).lasting hdone
      simp [hlasting]
    · simp [hdone]
  have hnotRunning : args.status ≠ .running := by
    rcases hplain.status with h | h | h | h <;> simp [h]
  have hplace : (received.board worker).place args.stepId = (s.board worker).place args.stepId := by
    funext card id
    by_cases hid : id = args.stepId
    · rw [hid, Board.place_self, Board.place_self]
    · rw [Board.place_other hid, Board.place_other hid, congrFun hboard id, if_neg hid]
  cases hadds with
  | dropped hdropped =>
      rw [hdropped ref hrow] at hclaim
      cases hclaim
  | failed _ _ hraises => exact absurd hraises.1.1 hnotRunning
  | accepted hget _ _ haccepts =>
      obtain rfl := Option.some.inj (hrow.symm.trans hget)
      rw [henabled] at haccepts
      obtain ⟨hafter, status, hstatus, hplaced⟩ :=
        hreceived.accepts hplain hrow (hself ▸ hcard) haccepts
      refine ⟨rfl, hafter, status, hstatus, ?_⟩
      rw [hplaced, hself, hplace]

end Adding

/-! ## Asking for work -/

/-- The ranked loop makes a choice where it sees a step that is ready and needs nothing. -/
theorem bestStep_of_schedulable {args : GetWorkArgs} {used : Resources} {refs : List Ref}
    (selection : Selection) (hmem : ref ∈ refs) (hready : s.schedulable ref = true)
    (hworker : args.worker ∈ (s.stepAt ref).workers)
    (hresources : (s.stepAt ref).resources = ∅) :
    (refs.foldl (s.considerStep args used) selection).bestStep ≠ none := by
  induction refs generalizing selection with
  | nil => cases hmem
  | cons head rest ih =>
      rcases List.mem_cons.mp hmem with rfl | hrest
      · have hchosen : ∃ best, (s.considerStep args used selection ref).bestStep = some best := by
          cases hbest : selection.bestStep with
          | none =>
              have hfree : ∀ used, s.hasResources (s.stepAt ref).resources used = true := by
                intro used
                rw [hresources]
                rfl
              have hchoice : s.considerStep args used selection ref =
                  s.chooseStep args (s.reserveRunning selection ref) ref := by
                simp [considerStep, hbest, hready, hfree, hworker]
              rw [hchoice]
              exact ⟨ref, (s.chooseStep_cases args _ ref).1⟩
          | some best => exact ⟨best, bestStep_kept hbest [ref]⟩
        obtain ⟨best, hbest⟩ := hchosen
        rw [List.foldl_cons, bestStep_kept hbest rest]
        exact Option.some_ne_none best
      · exact ih _ hrest

theorem countPendingSteps_workerState {refs : List Ref} {table : UpstreamTable}
    {reply answer : PendingReply}
    (hcount : s.countPendingSteps worker refs table reply = .ok answer) :
    answer.workerState = reply.workerState := by
  induction refs generalizing table reply with
  | nil =>
      cases hcount
      rfl
  | cons ref rest ih =>
      simp only [countPendingSteps] at hcount
      split at hcount
      · cases hcount
      · split at hcount
        · exact ih hcount
        · split at hcount
          · cases hcount
          · exact (ih hcount : _)

theorem countPending_workerState {moment : Moment} {reply : PendingReply}
    (hcount : (countPending moment worker).exec s = (.ok reply, t)) :
    reply.workerState = (t.workerAt worker).state := by
  unfold countPending at hcount
  rw [exec_modify_bind, exec_get_bind] at hcount
  obtain ⟨⟨running, table⟩, middle, -, hrest⟩ := exec_bind_eq_ok hcount
  rw [exec_get_bind] at hrest
  cases hsteps : middle.countPendingSteps worker
      ((middle.workerAt worker).getSteps middle [.pending, .failed]) table
      { workerState := (middle.workerAt worker).state, runningSteps := running } with
  | error error =>
      rw [hsteps] at hrest
      cases hrest
  | ok answer =>
      rw [hsteps] at hrest
      cases hrest
      exact countPendingSteps_workerState hsteps

theorem countPendingSteps_runningSteps {refs : List Ref} {table : UpstreamTable}
    {reply answer : PendingReply}
    (hcount : s.countPendingSteps worker refs table reply = .ok answer) :
    answer.runningSteps = reply.runningSteps := by
  induction refs generalizing table reply with
  | nil =>
      cases hcount
      rfl
  | cons ref rest ih =>
      simp only [countPendingSteps] at hcount
      split at hcount
      · cases hcount
      · split at hcount
        · exact ih hcount
        · split at hcount
          · cases hcount
          · exact (ih hcount : _)

/-- No running step is listed where none runs. -/
theorem countPending_runningSteps {moment : Moment} {reply : PendingReply}
    (hnone : ((s.ensureWorker moment.now worker).workerAt worker).getSteps
      (s.ensureWorker moment.now worker) [.running] = [])
    (hcount : (countPending moment worker).exec s = (.ok reply, t)) : reply.runningSteps = [] := by
  unfold countPending at hcount
  rw [exec_modify_bind, exec_get_bind, hnone] at hcount
  obtain ⟨⟨running, table⟩, middle, hlist, hrest⟩ := exec_bind_eq_ok hcount
  cases hlist
  rw [exec_get_bind] at hrest
  cases hsteps : (s.ensureWorker moment.now worker).countPendingSteps worker
      (((s.ensureWorker moment.now worker).workerAt worker).getSteps
        (s.ensureWorker moment.now worker) [.pending, .failed]) ∅
      { workerState := ((s.ensureWorker moment.now worker).workerAt worker).state
        runningSteps := [] } with
  | error error =>
      rw [hsteps] at hrest
      cases hrest
  | ok answer =>
      rw [hsteps] at hrest
      cases hrest
      exact countPendingSteps_runningSteps hsteps

section Asking

variable {env : Env} {moment : Moment} {args : GetWorkArgs}

theorem Lone.mem_getSteps (hlone : Lone worker s) {other : WorkerId} {statuses : List Status}
    (hmem : ref ∈ (s.workerAt other).getSteps s statuses) :
    s.Filed ref ∧ (s.stepAt ref).status ∈ statuses := by
  obtain ⟨hrefers, hstatus, -⟩ := hlone.sound.mem_getSteps hmem
  exact ⟨hlone.refers hrefers, hstatus⟩

theorem Lone.countsLiveSteps (hlone : Lone worker s) (other : WorkerId) :
    s.CountsLiveSteps other :=
  hlone.sound.countsLiveSteps fun hmem => (hlone.mem_getSteps hmem).1

/-- The ranked loop sees the same board. -/
theorem Lone.ranked (hlone : Lone worker s) (env : Env) (moment : Moment) (args : GetWorkArgs)
    (hprune : env.config.pruneOnGetWork = false) :
    Lone worker (env.ranked s moment args) ∧
      (env.ranked s moment args).board worker = s.board worker := by
  have hreceived := received_unpruned s env moment args hprune
  obtain ⟨-, hprepares, -⟩ := ranked_noted env moment args hlone.sound.stored hlone.sound.retriable
  rw [hreceived] at hprepares
  obtain ⟨hlone', hboard'⟩ := hlone.greets (greets_updateWorker s moment.now args.worker true)
  have hobject : ∀ ref, (env.ranked s moment args).stepAt ref =
      (s.updateWorker moment.now args.worker true).stepAt ref := by
    intro ref
    rw [hprepares.object, if_neg]
    rintro ⟨-, horphan⟩
    obtain ⟨hfiled, hstatus, -⟩ := hlone'.sound.index.mem_orphanedSteps.mp horphan
    exact (hlone'.plain hfiled).status hstatus
  obtain ⟨u, hgreets, hsame⟩ := hprepares.greeted
  have hworker : ∀ id, ((env.ranked s moment args).workerAt id).steps =
        ((s.updateWorker moment.now args.worker true).workerAt id).steps ∧
      ((env.ranked s moment args).workerAt id).disabled =
        ((s.updateWorker moment.now args.worker true).workerAt id).disabled := by
    intro id
    rw [hsame.workerAt]
    exact (hgreets.worker id).2
  obtain ⟨hranked, hboard⟩ := hlone'.congr (hlone'.sound.prepares hprepares)
    (hsame.paused.trans hgreets.paused) hworker hprepares.getStep hobject
  exact ⟨hranked, hboard.trans hboard'⟩

theorem Lone.relevantSteps (hlone : Lone worker s) (args : GetWorkArgs) (config : Config)
    (now : Time) (hmem : ref ∈ (s.relevantSteps args config now).1) : s.Filed ref :=
  hlone.sound.filed_relevantSteps (fun hmem => (hlone.mem_getSteps hmem).1) hmem

/-- A pending step of the worker is among the steps that its request looks at. -/
theorem Lone.mem_relevantSteps (hlone : Lone worker s) {args : GetWorkArgs} (config : Config)
    (now : Time) (hargs : args.worker = worker) (hfiled : s.Filed ref)
    (hstatus : (s.stepAt ref).status = .pending) (hmine : worker ∈ (s.stepAt ref).workers) :
    ref ∈ (s.relevantSteps args config now).1 := by
  have hactive : ref ∈ s.activeStepsByStatus [.pending, .running] := by
    rw [hlone.sound.index.mem_activeStepsByStatus, hstatus]
    exact ⟨hfiled, List.mem_cons_self ..⟩
  unfold Scheduler.relevantSteps
  dsimp only
  rw [hlone.active, if_neg Bool.false_ne_true]
  split
  · unfold Worker.getSteps
    dsimp only
    split
    · refine List.mem_filter.mpr ⟨?_, by simp [hstatus]⟩
      exact hargs ▸ (hlone.sound.rostered.lists hfiled hmine).2
    · refine List.mem_filter.mpr ⟨hactive, ?_⟩
      rw [hlone.sound.rostered.worker_id, hargs]
      exact decide_eq_true hmine
  · exact hactive

/-- What is ready on the board is what the ranked loop may choose. -/
theorem ready_iff_schedulable : (s.board worker).Ready id ↔
    ∃ ref, s.getStep id = some ref ∧ s.schedulable ref = true ∧
      worker ∈ (s.stepAt ref).workers := by
  have hdone : ∀ dep, (s.board worker).Done dep ↔
      ∃ target, s.getStep dep = some target ∧ (s.stepAt target).status = .done := by
    intro dep
    constructor
    · rintro ⟨card, hcard, hstatus⟩
      obtain ⟨target, hget, rfl⟩ := board_eq_some.mp hcard
      exact ⟨target, hget, hstatus⟩
    · rintro ⟨target, hget, hstatus⟩
      exact ⟨_, board_of_get hget, hstatus⟩
  have hdeps : ∀ ref, s.schedulable ref = true ↔ (s.stepAt ref).status = .pending ∧
      ∀ dep ∈ ((s.stepAt ref).card worker).deps, (s.board worker).Done dep := by
    intro ref
    simp only [schedulable, Bool.and_eq_true, beq_iff_eq, List.all_eq_true, Step.card,
      List.mem_toFinset, hdone]
    refine and_congr_right fun _ => forall₂_congr fun dep _ => ?_
    cases s.getStep dep <;> simp
  constructor
  · rintro ⟨card, hcard, hstatus, hmine, hready⟩
    obtain ⟨ref, hget, rfl⟩ := board_eq_some.mp hcard
    exact ⟨ref, hget, (hdeps ref).mpr ⟨hstatus, hready⟩, of_decide_eq_true hmine⟩
  · rintro ⟨ref, hget, hready, hmine⟩
    obtain ⟨hstatus, hdone⟩ := (hdeps ref).mp hready
    exact ⟨_, board_of_get hget, hstatus, decide_eq_true hmine, hdone⟩

theorem Lone.answersLiveSteps (hlone : Lone worker s) (env : Env) (moment : Moment)
    (args : GetWorkArgs) (hprune : env.config.pruneOnGetWork = false) :
    env.AnswersLiveSteps s ⟨moment, .getWork args⟩ := by
  obtain ⟨hranked, -⟩ := hlone.ranked env moment args hprune
  exact ⟨fun _ ref hmem _ => hranked.relevantSteps args env.config moment.now hmem,
    fun _ => hranked.countsLiveSteps args.worker⟩

/-- A step of the board starts. -/
theorem Hands.board {now : Time} (hands : Hands (fun step => step.handed worker now) [ref] s t)
    (hindex : s.Indexed) (hget : s.getStep id = some ref) :
    t.board worker = (s.board worker).start id := by
  funext other
  by_cases hother : other = id
  · rw [hother, Board.start_self, board_of_get hget,
      board_of_get ((hands.same.getStep id).trans hget), hands.object,
      if_pos (List.mem_singleton_self ref)]
    simp only [Step.card, Step.handed_status, Step.handed_workers, Option.map_some,
      Option.some.injEq, Card.mk.injEq, true_and, and_true]
    rw [Step.handed, Step.withStatus]
    split <;> rfl
  · rw [Board.start_other hother]
    simp only [Scheduler.board, hands.same.getStep]
    cases hrow : s.getStep other with
    | none => rfl
    | some row =>
        have hne : row ≠ ref := by
          rintro rfl
          exact hother ((hindex.step_id hrow).symm.trans (hindex.step_id hget))
        rw [Option.map_some, Option.map_some, hands.object, if_neg (by simpa using hne)]

theorem Lone.hands (hlone : Lone worker s) {now : Time} (hsound : t.Sound)
    (hands : Hands (fun step => step.handed worker now) [ref] s t) : Lone worker t := by
  have hobject : ∀ other, t.stepAt other =
      if other = ref then (s.stepAt other).handed worker now else s.stepAt other := by
    intro other
    rw [hands.object]
    simp only [List.mem_singleton]
  have hfiled : ∀ other, t.Filed other ↔ s.Filed other := by
    intro other
    rw [Filed, Filed, hands.same.getStep, hobject]
    split
    · rw [Step.handed_id]
    · rfl
  constructor
  · exact hsound
  · exact hands.same.paused.trans hlone.active
  · rw [hands.same.workerAt]
    exact hlone.enabled
  · intro other listed hlisted
    rw [hands.same.workerAt] at hlisted
    exact (hfiled listed).mpr (hlone.listed hlisted)
  · intro other h
    have hplain := hlone.plain ((hfiled other).mp h)
    rw [hobject]
    split
    · have hsame : ((s.stepAt other).handed worker now).resources = (s.stepAt other).resources ∧
          ((s.stepAt other).handed worker now).batchable = (s.stepAt other).batchable := by
        rw [Step.handed, Step.withStatus]
        split <;> exact ⟨rfl, rfl⟩
      constructor
      · exact hsame.1.trans hplain.resources
      · exact hsame.2.trans hplain.batchable
      · exact (Step.batchId_handed ..).trans hplain.batchId
      · rw [Step.handed_status]
        intro h
        cases h
      · exact fun _ => rfl
    · exact hplain

/-- Where nothing runs, the worker gets a step that is ready, if there is one. -/
theorem Lone.getWork (hlone : Lone worker s) (env : Env) (moment : Moment)
    (hprune : env.config.pruneOnGetWork = false) (hargs : args.worker = worker)
    (hassistant : args.assistant = false)
    (hidle : ∀ id card, s.board worker id = some card → card.status ≠ .running) :
    ∃ pending work, env.outcome s ⟨moment, .getWork args⟩ = .ok (.work ⟨pending, work⟩) ∧
      pending.workerState = .active ∧ pending.runningSteps = [] ∧
      Lone worker (env.after s ⟨moment, .getWork args⟩) ∧
      ((work = .nothing ∧ (∀ id, ¬(s.board worker).Ready id) ∧
          (env.after s ⟨moment, .getWork args⟩).board worker = s.board worker) ∨
        ∃ id family module params, work = .single id family module params ∧
          (s.board worker).Ready id ∧
          (env.after s ⟨moment, .getWork args⟩).board worker = (s.board worker).start id) := by
  obtain ⟨hranked, hboard⟩ := hlone.ranked env moment args hprune
  have hlive := hlone.answersLiveSteps env moment args hprune
  have hreceived := received_unpruned s env moment args hprune
  have hgreets := greets_updateWorker s moment.now args.worker true
  have henabled : ((env.received s moment args).workerAt args.worker).enabled = true := by
    rw [hreceived, Worker.enabled, (hgreets.worker args.worker).2.2, hargs]
    exact hlone.enabled
  have hlost : (env.received s moment args).lostStep args = none := by
    cases hcase : (env.received s moment args).lostStep args with
    | none => rfl
    | some ref =>
        obtain ⟨hlone', hboard'⟩ := hlone.greets hgreets
        obtain ⟨-, -, hactive, -⟩ := lostStep_cases hcase
        rw [hreceived, hlone'.sound.index.mem_activeStepsByStatus] at hactive
        have hrunning := List.mem_singleton.mp hactive.2
        have hcard := hboard' ▸ @board_of_get _ worker _ _ hactive.1
        exact absurd hrunning (hidle _ _ hcard)
  have hanswers : env.raised s ⟨moment, .getWork args⟩ = none := Env.answers hlone.sound hlive
  rcases hlone.sound.after_getWork_counts env moment hlive.1 henabled with
    ⟨error, -, houtcome⟩ | ⟨pending, counted, work, hcount, houtcome, hhands, -⟩
  · rw [(env.raised_eq_some ..).mpr houtcome] at hanswers
    cases hanswers
  have hselected := selectWork_selected (env.ranked s moment args) args env.config moment.now
    ((env.received s moment args).lostStep args)
  have hpicks := fun ref => picks_filed env moment args ref hlone.sound.stored
    hlone.sound.retriable henabled hlive.1
  obtain ⟨-, hgreets', -⟩ := Scheduler.countPending_meets moment args.worker
    (env.ranked s moment args)
  simp only [Program.final, hcount] at hgreets'
  obtain ⟨hcounted, hboard'⟩ := hranked.greets hgreets'
  have hstate : pending.workerState = .active := by
    rw [countPending_workerState hcount, Worker.state, hargs, if_pos hcounted.enabled]
  have hrunning : pending.runningSteps = [] := by
    rw [hargs] at hcount
    refine countPending_runningSteps (List.eq_nil_iff_forall_not_mem.mpr fun ref hmem => ?_) hcount
    obtain ⟨hensured, hboard'⟩ :=
      hranked.greets (greets_ensureWorker (env.ranked s moment args) moment.now worker)
    obtain ⟨hfiled, hstatus⟩ := hensured.mem_getSteps hmem
    have hcard := hboard'.trans hboard ▸ @board_of_get _ worker _ _ hfiled
    exact hidle _ _ hcard (List.mem_singleton.mp hstatus)
  generalize env.after s ⟨moment, .getWork args⟩ = t at hhands ⊢
  refine ⟨pending, work, houtcome, hstate, hrunning, ?_⟩
  rw [hlost] at hselected hpicks hhands
  set ranked := env.ranked s moment args
  set selection := ranked.selectWork args env.config moment.now none with hselection
  have hsound := hcounted.sound.handsOut hhands
  cases hhands with
  | nothing hbest =>
      refine ⟨hcounted, .inl ⟨rfl, fun id hready => ?_, hboard'.trans hboard⟩⟩
      rw [← hboard, ready_iff_schedulable] at hready
      obtain ⟨ref, hget, hready, hmine⟩ := hready
      have hfiled := hranked.sound.index.filed hget
      have hstatus : (ranked.stepAt ref).status = .pending := by
        simp only [schedulable, Bool.and_eq_true, beq_iff_eq] at hready
        exact hready.1
      have hmem := hranked.mem_relevantSteps env.config moment.now hargs hfiled hstatus hmine
      rw [← mem_sortByRankReverse ranked] at hmem
      exact bestStep_of_schedulable _ hmem hready (hargs ▸ hmine) (hranked.plain hfiled).resources
        hbest
  | @single best _ hbest hsize hands =>
      obtain ⟨hmem, hready, -, hmine⟩ := hselected.best rfl best hbest
      rw [mem_sortByRankReverse] at hmem
      have hfiled := hranked.relevantSteps args env.config moment.now hmem
      have hworker : worker ∈ (ranked.stepAt best).workers := by
        rw [hassistant, Bool.false_and, Bool.false_or, decide_eq_true_iff, hargs] at hmine
        exact hmine
      have hget : counted.getStep (counted.stepAt best).id = some best := by
        rw [hgreets'.getStep, hgreets'.stepAt]
        exact hfiled
      rw [hargs] at hands
      refine ⟨hcounted.hands hsound hands, .inr ⟨_, _, _, _, rfl, ?_, ?_⟩⟩
      · rw [← hboard, ready_iff_schedulable, hgreets'.stepAt]
        exact ⟨best, hfiled, hready, hworker⟩
      · rw [hands.board hcounted.sound.index hget, hboard', hboard]
  | batch hsize _ hands =>
      obtain ⟨ref, href⟩ := List.exists_mem_of_length_pos (Nat.zero_lt_of_lt hsize)
      have hpick : ref ∈ selection.picks := by
        rw [Selection.picks, if_pos hsize]
        exact href
      have hfiled := (hpicks ref hpick).1
      have hbatchable := (hselected.batched ref href).2.1
      rw [(hranked.plain hfiled).batchable] at hbatchable
      cases hbatchable

end Asking

end Scheduler

end Trun
