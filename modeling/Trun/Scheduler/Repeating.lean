import Trun.Scheduler.Choosing
import Trun.Scheduler.Eligibility
import Trun.Scheduler.Handling
import Trun.Scheduler.Owners

/-!
# Asking for work again

A worker that did not get the reply of `get_work` asks again.  It is handed out what it
was handed out before, since `get_work` looks for runs that the worker does not know of
and puts back the batches it did not start.
-/

namespace Trun

open Program

namespace Scheduler

variable {s t u : Scheduler} {env : Env} {moment : Moment} {args : GetWorkArgs} {ref : Ref}

/-! ## Workers that are known already -/

/-- The workers of the first state are as they were, and none that was added has asked for
work. -/
structure Recalls (s t : Scheduler) : Prop where
  known : ∀ id worker, s.activeWorkers.get? id = some worker →
    t.activeWorkers.get? id = some worker
  asking : t.activeWorkers.values.filter (fun worker => worker.lastGetWork.isSome) =
    s.activeWorkers.values.filter fun worker => worker.lastGetWork.isSome

theorem Recalls.refl (s : Scheduler) : Recalls s s := ⟨fun _ _ h => h, rfl⟩

theorem Recalls.trans (hst : Recalls s t) (htu : Recalls t u) : Recalls s u where
  known := fun id worker h => htu.known id worker (hst.known id worker h)
  asking := htu.asking.trans hst.asking

theorem recalls_ensureWorker (s : Scheduler) (now : Time) (worker : WorkerId) :
    Recalls s (s.ensureWorker now worker) := by
  unfold ensureWorker
  cases hget : s.activeWorkers.get? worker with
  | some _ => exact .refl s
  | none =>
      constructor
      · intro id known hknown
        dsimp only
        rw [Dict.get?_set, if_neg]
        · exact hknown
        · rintro rfl
          rw [hget] at hknown
          cases hknown
      · dsimp only
        rw [Dict.values_set_new _ hget, List.filter_append]
        simp

/-- What counting promises about workers that are known. -/
def recallingContract : Contract Raised Scheduler where
  inv _ := True
  rel := Recalls
  allows _ := True
  refl := .refl
  trans := .trans

theorem countPending_recalls (moment : Moment) (worker : WorkerId) :
    Honours recallingContract (countPending moment worker) :=
  countPending_honours recallingContract
    (fun s now worker _ => ⟨trivial, recalls_ensureWorker s now worker⟩)
    (fun _ _ _ => trivial) moment worker

/-- A choice among workers that have asked for work comes out the same. -/
theorem Recalls.filter (hrecalls : Recalls s t) {choose : Worker → Bool}
    (hchoose : ∀ worker, choose worker = true → worker.lastGetWork.isSome = true) :
    t.activeWorkers.values.filter choose = s.activeWorkers.values.filter choose := by
  have hasking : ∀ workers : List Worker, workers.filter choose =
      (workers.filter fun worker => worker.lastGetWork.isSome).filter choose := by
    intro workers
    rw [List.filter_filter]
    congr 1
    funext worker
    cases hworker : choose worker with
    | false => rfl
    | true => rw [hchoose worker hworker]; rfl
  rw [hasking, hrecalls.asking, ← hasking]

theorem Recalls.freeSlots (hrecalls : Recalls s t) (config : Config) (now : Time) :
    t.freeSlots config now = s.freeSlots config now := by
  unfold Scheduler.freeSlots
  rw [hrecalls.filter]
  intro worker hasked
  cases hlast : worker.lastGetWork with
  | none => simp [hlast] at hasked
  | some _ => rfl

theorem get?_updateWorkerAt (s : Scheduler) (id : WorkerId) (change : Worker → Worker) :
    (s.updateWorkerAt id change).activeWorkers.get? id = some (change (s.workerAt id)) := by
  unfold updateWorkerAt
  rw [Dict.get?_set, if_pos rfl]

/-- A worker that has just asked for work is known as such. -/
theorem updateWorker_eq_self {now : Time} {id : WorkerId} {worker : Worker}
    (hget : s.activeWorkers.get? id = some worker) (hactive : worker.lastActive = now)
    (hasked : worker.lastGetWork = some now) : s.updateWorker now id true = s := by
  have hworker : { worker with lastActive := now, lastGetWork := some now } = worker := by
    rw [← hactive, hactive, ← hasked]
    cases worker
    cases hactive
    rfl
  unfold updateWorker ensureWorker updateWorkerAt
  rw [hget]
  dsimp only
  rw [workerAt_eq hget, if_pos rfl, hworker, Dict.set_eq_self hget]

/-- So is an assistant that has just said so. -/
theorem noted_eq_self {worker : Worker} (hget : s.activeWorkers.get? args.worker = some worker)
    (hassistant : args.assistant = true → worker.info.assistant = some true) :
    s.noted args = s := by
  unfold noted
  split
  · rename_i hsays
    have hinfo : worker.info.update { assistant := some true } = worker.info := by
      have hknown := hassistant hsays
      unfold WorkerInfo.update
      cases hworker : worker.info
      rw [hworker] at hknown
      simp only at hknown
      subst hknown
      rfl
    unfold updateWorkerAt
    dsimp only
    rw [workerAt_eq hget, hinfo, Dict.set_eq_self hget]
  · rfl

/-! ## One call -/

def choice (env : Env) (moment : Moment) (args : GetWorkArgs) (s : Scheduler) : Selection :=
  (env.ranked s moment args).selectWork args env.config moment.now
    ((env.received s moment args).lostStep args)

/-- What a call that returns amounts to. -/
structure Replies (env : Env) (moment : Moment) (args : GetWorkArgs) (s : Scheduler)
    (work : Work) (t : Scheduler) : Prop where
  prepares : Prepares moment.now args (env.received s moment args) (env.ranked s moment args)
  /-- The worker has asked just now, and is an assistant if it says so. -/
  asked : ∃ worker, (env.ranked s moment args).activeWorkers.get? args.worker = some worker ∧
    worker.lastActive = moment.now ∧ worker.lastGetWork = some moment.now ∧
    (args.assistant = true → worker.info.assistant = some true)
  hands : ∃ counted, Greets (env.ranked s moment args) counted ∧
    Recalls (env.ranked s moment args) counted ∧
    HandsOut env moment.now args.worker (choice env moment args s) counted work t ∧
    work = (choice env moment args s).work env counted

theorem Sound.replies (hsound : s.Sound) (hlive : env.AnswersLiveSteps s ⟨moment, .getWork args⟩)
    (hprune : env.config.pruneOnGetWork = false)
    (henabled : (s.workerAt args.worker).enabled = true) :
    ∃ pending work, env.outcome s ⟨moment, .getWork args⟩ = .ok (.work ⟨pending, work⟩) ∧
      Replies env moment args s work (env.after s ⟨moment, .getWork args⟩) := by
  have hreceived := received_unpruned s env moment args hprune
  have henabled' : ((env.received s moment args).workerAt args.worker).enabled = true := by
    have hgreets := greets_updateWorker s moment.now args.worker true
    rw [hreceived]
    unfold Worker.enabled
    rw [(hgreets.worker args.worker).2.2]
    exact henabled
  obtain ⟨-, hprepares, hsame⟩ := ranked_noted env moment args hsound.stored hsound.retriable
  have hanswers : env.raised s ⟨moment, .getWork args⟩ = none := Env.answers hsound hlive
  have hasked : ∃ worker, (env.ranked s moment args).activeWorkers.get? args.worker =
      some worker ∧ worker.lastActive = moment.now ∧ worker.lastGetWork = some moment.now ∧
      (args.assistant = true → worker.info.assistant = some true) := by
    have hget : (s.updateWorker moment.now args.worker true).activeWorkers.get? args.worker =
        some { (s.ensureWorker moment.now args.worker).workerAt args.worker with
          lastActive := moment.now, lastGetWork := some moment.now } :=
      get?_updateWorkerAt ..
    rw [hsame.activeWorkers, hreceived]
    unfold noted
    split
    · refine ⟨_, get?_updateWorkerAt .., ?_⟩
      rw [workerAt_eq hget]
      exact ⟨rfl, rfl, fun _ => rfl⟩
    · rename_i hsilent
      exact ⟨_, hget, rfl, rfl, fun h => absurd h hsilent⟩
  rcases hsound.after_getWork_counts env moment hlive.1 henabled' with
    ⟨error, -, houtcome⟩ | ⟨pending, counted, work, hcount, houtcome, hhands, hwork⟩
  · rw [(env.raised_eq_some ..).mpr houtcome] at hanswers
    cases hanswers
  · obtain ⟨-, hgreets, -⟩ :=
      Scheduler.countPending_meets moment args.worker (env.ranked s moment args)
    obtain ⟨-, hrecalls, -⟩ :=
      countPending_recalls moment args.worker (env.ranked s moment args) trivial
    simp only [Program.final, hcount] at hgreets hrecalls
    exact ⟨pending, work, houtcome, hprepares, hasked, counted, hgreets, hrecalls, hhands, hwork⟩

/-! ## What the marks of a run leave alone -/

end Scheduler

namespace Step

/-- A step without the marks of a hand-out. -/
def unmarked (step : Step) : Step :=
  { step with
    status := .pending, updated := 0, workerRunning := none, timeRunning := none
    resourcesRunning := none, resourcesShared := false, batchId := none }

section Marks

variable (step : Step) (worker : WorkerId) (now : Time) (batchId : BatchId) (newStatus : Status)

theorem unmarked_withStatus : (step.withStatus now newStatus).unmarked = step.unmarked := by
  unfold withStatus
  split <;> rfl

theorem unmarked_handed : (step.handed worker now).unmarked = step.unmarked :=
  step.unmarked_withStatus now .running

theorem unmarked_reserved : (step.reserved worker now batchId).unmarked = step.unmarked :=
  step.unmarked_withStatus now .batchRunning

theorem batchId_handed : (step.handed worker now).batchId = step.batchId := by
  unfold handed withStatus
  split <;> rfl

theorem handed_handed :
    (step.handed worker now).handed worker now = step.handed worker now := by
  have hstatus := step.handed_status worker now
  unfold handed at hstatus ⊢
  rw [withStatus, if_pos hstatus.symm, step.withStatus_resources]

/-- A member that is put back and reserved again. -/
theorem reserved_returned (hpending : step.status = .pending) :
    ((step.reserved worker now batchId).withStatus now .pending).reserved worker now batchId =
      step.reserved worker now batchId := by
  cases step
  cases hpending
  rfl

/-- To the ranked loop, a member that is put back is as it was. -/
theorem offer_returned (hpending : step.status = .pending) :
    ((step.reserved worker now batchId).withStatus now .pending).offer = step.offer := by
  cases step
  cases hpending
  rfl

end Marks

end Step

namespace Scheduler

variable {s t u : Scheduler} {env : Env} {moment : Moment} {args : GetWorkArgs} {ref : Ref}
variable {now : Time} {worker : WorkerId}

/-- `get_work` has left everything but the workers and the marks of runs. -/
structure Resembles (s t : Scheduler) : Prop where
  steps : t.steps = s.steps
  stepBatchers : t.stepBatchers = s.stepBatchers
  resources : t.resources = s.resources
  paused : t.paused = s.paused
  unmarked : ∀ ref, (t.stepAt ref).unmarked = (s.stepAt ref).unmarked

theorem Resembles.trans (hst : Resembles s t) (htu : Resembles t u) : Resembles s u where
  steps := htu.steps.trans hst.steps
  stepBatchers := htu.stepBatchers.trans hst.stepBatchers
  resources := htu.resources.trans hst.resources
  paused := htu.paused.trans hst.paused
  unmarked := fun ref => (htu.unmarked ref).trans (hst.unmarked ref)

theorem SameTables.resembles (hsame : SameTables s t)
    (hunmarked : ∀ ref, (t.stepAt ref).unmarked = (s.stepAt ref).unmarked) : Resembles s t :=
  ⟨hsame.steps, hsame.stepBatchers, hsame.resources, hsame.paused, hunmarked⟩

theorem Greets.resembles (hgreets : Greets s t) : Resembles s t :=
  ⟨hgreets.steps, hgreets.stepBatchers, hgreets.resources, hgreets.paused, fun ref =>
    congrArg Step.unmarked (hgreets.stepAt ref)⟩

theorem Prepares.resembles (hprepares : Prepares now args s t) : Resembles s t := by
  obtain ⟨u, hgreets, hsame⟩ := hprepares.greeted
  have hkept := hgreets.resembles
  refine ⟨hsame.steps.trans hkept.steps, hsame.stepBatchers.trans hkept.stepBatchers,
    hsame.resources.trans hkept.resources, hsame.paused.trans hkept.paused, fun ref => ?_⟩
  rw [hprepares.object]
  split
  · apply Step.unmarked_withStatus
  · rfl

theorem Hands.resembles {change : Step → Step} {refs : List Ref} (hands : Hands change refs s t)
    (hchange : ∀ step, (change step).unmarked = step.unmarked) : Resembles s t := by
  apply hands.same.resembles
  intro ref
  rw [hands.object]
  split
  · apply hchange
  · rfl

theorem HandsOut.resembles {selection : Selection} {work : Work}
    (hhands : HandsOut env now worker selection s work t) : Resembles s t := by
  cases hhands with
  | nothing => exact ⟨rfl, rfl, rfl, rfl, fun _ => rfl⟩
  | single _ _ hands => exact hands.resembles fun step => step.unmarked_handed worker now
  | batch _ _ hands => exact hands.resembles fun step => step.unmarked_reserved worker now _

theorem HandsOut.activeWorkers {selection : Selection} {work : Work}
    (hhands : HandsOut env now worker selection s work t) :
    t.activeWorkers = s.activeWorkers := by
  cases hhands with
  | nothing => rfl
  | single _ _ hands => exact hands.same.activeWorkers
  | batch _ _ hands => exact hands.same.activeWorkers

/-! What was handed out is known from the choice. -/

section Choice

variable {selection : Selection} {work : Work}
variable (hhands : HandsOut env now worker selection s work t)

include hhands

theorem HandsOut.eq_of_nothing (hbest : selection.bestStep = none)
    (hbatched : selection.batchedSteps = []) : t = s := by
  cases hhands with
  | nothing => rfl
  | single hchosen => simp [hbest] at hchosen
  | batch hsize => simp [hbatched] at hsize

theorem HandsOut.hands_single {best : Ref} (hbest : selection.bestStep = some best)
    (hsize : ¬1 < selection.batchedSteps.length) :
    Hands (fun step => step.handed worker now) [best] s t := by
  cases hhands with
  | nothing hnone => simp [hbest] at hnone
  | single hchosen _ hands =>
      obtain rfl := Option.some.inj (hbest.symm.trans hchosen)
      exact hands
  | batch hlarge => exact absurd hlarge hsize

theorem HandsOut.hands_batch (hbest : selection.bestStep ≠ none)
    (hsize : 1 < selection.batchedSteps.length) :
    Hands (fun step => step.reserved worker now
      (env.batchId (selection.batchedSteps.map fun ref => (s.stepAt ref).id)))
      selection.batchedSteps s t := by
  cases hhands with
  | nothing hnone => exact absurd hnone hbest
  | single _ hsmall => exact absurd hsize hsmall
  | batch _ hids hands => exact hids ▸ hands

end Choice

section Resembles

variable (hresembles : Resembles s t)

include hresembles

theorem Resembles.filed (ref : Ref) : t.Filed ref ↔ s.Filed ref := by
  have hid : (t.stepAt ref).id = (s.stepAt ref).id :=
    (congrArg Step.id (hresembles.unmarked ref) :)
  unfold Filed Scheduler.getStep
  rw [hresembles.steps, hid]

theorem Resembles.rankLe : t.rankLe = s.rankLe := by
  funext left right
  have hparts : ∀ ref, (t.stepAt ref).priority = (s.stepAt ref).priority ∧
      (t.stepAt ref).time = (s.stepAt ref).time := fun ref =>
    ⟨(congrArg Step.priority (hresembles.unmarked ref) :),
      (congrArg Step.time (hresembles.unmarked ref) :)⟩
  unfold Scheduler.rankLe
  rw [(hparts left).1, (hparts left).2, (hparts right).1, (hparts right).2]

theorem Resembles.ranksDistinct (hs : s.Indexed) (ht : t.Indexed) (hranks : s.RanksDistinct) :
    t.RanksDistinct := by
  have hactive : ∀ ref, ref ∈ t.activeSteps → ref ∈ s.activeSteps := fun ref href =>
    hs.mem_activeSteps.mpr ((hresembles.filed ref).mp (ht.mem_activeSteps.mp href))
  have hpriority : ∀ ref, (t.stepAt ref).priority = (s.stepAt ref).priority := fun ref =>
    (congrArg Step.priority (hresembles.unmarked ref) :)
  have htime : ∀ ref, (t.stepAt ref).time = (s.stepAt ref).time := fun ref =>
    (congrArg Step.time (hresembles.unmarked ref) :)
  intro left hleft right hright hsamePriority hsameTime
  rw [hpriority, hpriority] at hsamePriority
  rw [htime, htime] at hsameTime
  exact hranks left (hactive left hleft) right (hactive right hright) hsamePriority hsameTime

/-- The same choice is reported as the same work. -/
theorem Resembles.work (selection : Selection) (env : Env) :
    selection.work env t = selection.work env s := by
  have hparts : ∀ ref, (t.stepAt ref).id = (s.stepAt ref).id ∧
      (t.stepAt ref).family = (s.stepAt ref).family ∧
      (t.stepAt ref).module = (s.stepAt ref).module ∧
      (t.stepAt ref).params = (s.stepAt ref).params := fun ref =>
    ⟨(congrArg Step.id (hresembles.unmarked ref) :),
      (congrArg Step.family (hresembles.unmarked ref) :),
      (congrArg Step.module (hresembles.unmarked ref) :),
      (congrArg Step.params (hresembles.unmarked ref) :)⟩
  unfold Selection.work
  simp only [(hparts _).1, (hparts _).2.1, (hparts _).2.2.1, (hparts _).2.2.2]

end Resembles

/-! ## Lost steps -/

/-- The worker runs the step according to the scheduler, but does not say so. -/
def Lost (s : Scheduler) (args : GetWorkArgs) (ref : Ref) : Prop :=
  s.Filed ref ∧ (s.stepAt ref).status = .running ∧
    (s.stepAt ref).workerRunning = some args.worker ∧
    ∃ current, args.currentSteps = some current ∧ (s.stepAt ref).id ∉ current

/-- The lost step of the highest rank is found. -/
theorem Indexed.lostStep_some (hindex : s.Indexed) (hlost : s.lostStep args = some ref) :
    s.Lost args ref ∧ ∀ other, s.Lost args other → other = ref ∨ s.rankLe other ref := by
  unfold lostStep at hlost
  cases hcurrent : args.currentSteps with
  | none => simp [hcurrent] at hlost
  | some current =>
      simp only [hcurrent] at hlost
      set found := (s.sortByRank (s.activeStepsByStatus [.running])).filter fun ref =>
        (s.stepAt ref).workerRunning = some args.worker ∧ (s.stepAt ref).id ∉ current with hfound
      have hmem : ∀ other, other ∈ found ↔ s.Lost args other := by
        intro other
        rw [hfound, List.mem_filter, sortByRank, List.mem_insertionSort,
          hindex.mem_activeStepsByStatus]
        simp only [Lost, hcurrent, List.mem_singleton, decide_eq_true_eq, Option.some.injEq,
          exists_eq_left', and_assoc]
      have hsorted : found.Pairwise s.rankLe :=
        (List.pairwise_insertionSort s.rankLe _).filter _
      obtain ⟨before, hsplit⟩ := List.getLast?_eq_some_iff.mp hlost
      refine ⟨(hmem ref).mp (by simp [hsplit]), fun other hother => ?_⟩
      rw [hsplit] at hsorted hmem
      rcases List.mem_append.mp ((hmem other).mpr hother) with hbefore | hlast
      · exact .inr ((List.pairwise_append.mp hsorted).2.2 other hbefore ref (by simp))
      · exact .inl (List.mem_singleton.mp hlast)

theorem Indexed.lostStep_none (hindex : s.Indexed) (hlost : s.lostStep args = none) (ref : Ref) :
    ¬s.Lost args ref := by
  rintro ⟨hfiled, hstatus, howner, current, hcurrent, hid⟩
  unfold lostStep at hlost
  simp only [hcurrent, List.getLast?_eq_none_iff, List.filter_eq_nil_iff] at hlost
  refine hlost ref ?_ (by simp [howner, hid])
  rw [sortByRank, List.mem_insertionSort, hindex.mem_activeStepsByStatus]
  exact ⟨hfiled, List.mem_singleton.mpr hstatus⟩

theorem Indexed.lostStep_eq_none (hindex : s.Indexed) (hlost : ∀ ref, ¬s.Lost args ref) :
    s.lostStep args = none := by
  cases hfound : s.lostStep args with
  | none => rfl
  | some ref => exact absurd (hindex.lostStep_some hfound).1 (hlost ref)

/-- Where no two ranks are the same, it is the only one that can be found. -/
theorem Indexed.lostStep_eq (hindex : s.Indexed) (hranks : s.RanksDistinct)
    (hlost : s.Lost args ref)
    (hhighest : ∀ other, s.Lost args other → other = ref ∨ s.rankLe other ref) :
    s.lostStep args = some ref := by
  cases hfound : s.lostStep args with
  | none => exact absurd hlost (hindex.lostStep_none hfound ref)
  | some found =>
      obtain ⟨hlostFound, hhighestFound⟩ := hindex.lostStep_some hfound
      congr 1
      rcases hhighest found hlostFound with hsame | hle
      · exact hsame
      · rcases hhighestFound ref hlost with hsame | hge
        · exact hsame.symm
        · exact hranks.antisymm (hindex.mem_activeSteps.mpr hlostFound.1)
            (hindex.mem_activeSteps.mpr hlost.1) hle hge

/-- Steps that look the same are lost in both states. -/
theorem Lost.of_same (hlost : t.Lost args ref) (hfiled : s.Filed ref)
    (hsame : s.stepAt ref = t.stepAt ref) : s.Lost args ref := by
  refine ⟨hfiled, ?_⟩
  rw [hsame]
  exact hlost.2

theorem Prepares.lost (hprepares : Prepares now args s t) (hindex : s.Indexed) :
    t.Lost args ref ↔ s.Lost args ref := by
  have hfiled := hprepares.filed ref
  constructor
  · intro hlost
    apply hlost.of_same (hfiled.mp hlost.1)
    exact (hprepares.running ref (by rw [hlost.2.1]; rfl)).symm
  · intro hlost
    apply hlost.of_same (hfiled.mpr hlost.1)
    rw [hprepares.object, if_neg]
    rintro ⟨-, horphan⟩
    have hstatus := (hindex.mem_orphanedSteps.mp horphan).2.1
    rw [hlost.2.1] at hstatus
    cases hstatus

/-! ## Orphaned steps -/

/-- Once the unclaimed steps are back, none is left. -/
theorem Prepares.orphanedSteps (hprepares : Prepares now args s t) (hindex : s.Indexed)
    (hcurrent : args.currentSteps ≠ none) (ref : Ref) : ref ∉ t.orphanedSteps args.worker := by
  intro horphan
  obtain ⟨hfiled, hstatus, howner, hbatches⟩ := hprepares.index.mem_orphanedSteps.mp horphan
  have hsame : ∀ ref, (t.stepAt ref).status.isRunning = true → t.stepAt ref = s.stepAt ref :=
    fun ref => hprepares.running ref
  have hkept := hsame ref (by rw [hstatus]; rfl)
  have hclaimed : ref ∉ s.orphanedSteps args.worker := by
    intro horphaned
    rw [hprepares.object, if_pos ⟨hcurrent, horphaned⟩, Step.withStatus_status] at hstatus
    cases hstatus
  apply hclaimed
  apply hindex.mem_orphanedSteps.mpr
  rw [← hkept]
  refine ⟨(hprepares.filed ref).mp hfiled, hstatus, howner, fun other hother hrunning => ?_⟩
  have hunchanged : t.stepAt other = s.stepAt other := by
    rw [hprepares.object, if_neg]
    rintro ⟨-, horphaned⟩
    have hreserved := (hindex.mem_orphanedSteps.mp horphaned).2.1
    rw [hrunning] at hreserved
    cases hreserved
  rw [← hunchanged] at hrunning ⊢
  exact hbatches other ((hprepares.filed other).mpr hother) hrunning

/-! ## What a second call finds -/

section Single

variable {best : Ref} (hands : Hands (fun step => step.handed worker now) [best] s t)

include hands

theorem Hands.single_filed (ref : Ref) : t.Filed ref ↔ s.Filed ref :=
  (hands.resembles fun step => step.unmarked_handed worker now).filed ref

theorem Hands.single_self : t.stepAt best = (s.stepAt best).handed worker now := by
  rw [hands.object, if_pos (List.mem_singleton.mpr rfl)]

theorem Hands.single_other (hother : ref ≠ best) : t.stepAt ref = s.stepAt ref := by
  rw [hands.object, if_neg (mt List.mem_singleton.mp hother)]

/-- Other steps are lost only if they were. -/
theorem Hands.single_lost (hlost : t.Lost args ref) : ref = best ∨ s.Lost args ref := by
  by_cases hbest : ref = best
  · exact .inl hbest
  · exact .inr (hlost.of_same ((hands.single_filed ref).mp hlost.1)
      (hands.single_other hbest).symm)

/-- A run that starts claims no fewer batches. -/
theorem Hands.single_orphanedSteps (hindex : s.Indexed)
    (hnone : ∀ ref, ref ∉ s.orphanedSteps worker) (ref : Ref) :
    ref ∉ t.orphanedSteps worker := by
  intro horphan
  obtain ⟨hfiled, hstatus, howner, hbatches⟩ := hands.index.mem_orphanedSteps.mp horphan
  have hother : ref ≠ best := by
    rintro rfl
    rw [hands.single_self, Step.handed_status] at hstatus
    cases hstatus
  rw [hands.single_other hother] at hstatus howner hbatches
  apply hnone ref
  apply hindex.mem_orphanedSteps.mpr
  refine ⟨(hands.single_filed ref).mp hfiled, hstatus, howner, fun other hclaims hrunning hruns =>
    ?_⟩
  have hclaims' := (hands.single_filed other).mpr hclaims
  by_cases hbest : other = best
  · subst hbest
    have hbatch := hbatches other hclaims'
    rw [hands.single_self] at hbatch
    rw [← Step.batchId_handed (s.stepAt other) worker now]
    exact hbatch (Step.handed_status ..) rfl
  · have hbatch := hbatches other hclaims'
    rw [hands.single_other hbest] at hbatch
    exact hbatch hrunning hruns

end Single

section Batch

variable {members : List Ref} {batchId : BatchId}
variable (hands : Hands (fun step => step.reserved worker now batchId) members s t)

include hands

theorem Hands.batch_filed (ref : Ref) : t.Filed ref ↔ s.Filed ref :=
  (hands.resembles fun step => step.unmarked_reserved worker now batchId).filed ref

theorem Hands.batch_member (hmember : ref ∈ members) :
    t.stepAt ref = (s.stepAt ref).reserved worker now batchId := by
  rw [hands.object, if_pos hmember]

theorem Hands.batch_other (hother : ref ∉ members) : t.stepAt ref = s.stepAt ref := by
  rw [hands.object, if_neg hother]

/-- A batch that is reserved starts no run. -/
theorem Hands.batch_running (hrunning : (t.stepAt ref).status = .running) :
    t.stepAt ref = s.stepAt ref := by
  by_cases hmember : ref ∈ members
  · rw [hands.batch_member hmember, Step.reserved_status] at hrunning
    cases hrunning
  · exact hands.batch_other hmember

theorem Hands.batch_lost (hlost : t.Lost args ref) : s.Lost args ref :=
  hlost.of_same ((hands.batch_filed ref).mp hlost.1) (hands.batch_running hlost.2.1).symm

/-- A batch that no run claims is put back, and nothing else. -/
theorem Hands.batch_orphanedSteps (hindex : s.Indexed)
    (hfiled : ∀ ref ∈ members, s.Filed ref)
    (hpending : ∀ ref ∈ members, (s.stepAt ref).status = .pending)
    (hnone : ∀ ref, ref ∉ s.orphanedSteps worker)
    (hunclaimed : ∀ ref, s.Filed ref → (s.stepAt ref).status = .running →
      (s.stepAt ref).workerRunning = some worker → (s.stepAt ref).batchId ≠ some batchId)
    (ref : Ref) : ref ∈ t.orphanedSteps worker ↔ ref ∈ members := by
  rw [hands.index.mem_orphanedSteps]
  constructor
  · rintro ⟨hfiledRef, hstatus, howner, hbatches⟩
    by_contra hother
    rw [hands.batch_other hother] at hstatus howner hbatches
    apply hnone ref
    apply hindex.mem_orphanedSteps.mpr
    refine ⟨(hands.batch_filed ref).mp hfiledRef, hstatus, howner,
      fun other hclaims hrunning hruns => ?_⟩
    have hkept : t.stepAt other = s.stepAt other := by
      apply hands.batch_other
      intro hmember
      rw [hpending other hmember] at hrunning
      cases hrunning
    have hbatch := hbatches other ((hands.batch_filed other).mpr hclaims)
    rw [hkept] at hbatch
    exact hbatch hrunning hruns
  · intro hmember
    have hself := hands.batch_member hmember
    refine ⟨(hands.batch_filed ref).mpr (hfiled ref hmember), ?_, ?_,
      fun other hclaims hrunning hruns => ?_⟩
    · rw [hself, Step.reserved_status]
    · rw [hself]
      rfl
    · have hkept := hands.batch_running hrunning
      rw [hkept] at hrunning hruns ⊢
      rw [hself]
      exact hunclaimed other ((hands.batch_filed other).mp hclaims) hrunning hruns

end Batch

/-! ## The second call -/

section Again

variable {work : Work} (hreplies : Replies env moment args s work t)

include hreplies

/-- The worker is known when it asks again. -/
theorem Replies.received_again (hprune : env.config.pruneOnGetWork = false) :
    env.received t moment args = t ∧ t.noted args = t := by
  obtain ⟨worker, hget, hactive, hasked, hassistant⟩ := hreplies.asked
  obtain ⟨counted, -, hrecalls, hhands, -⟩ := hreplies.hands
  have hknown : t.activeWorkers.get? args.worker = some worker := by
    rw [hhands.activeWorkers]
    exact hrecalls.known args.worker worker hget
  rw [received_unpruned t env moment args hprune]
  exact ⟨updateWorker_eq_self hknown hactive hasked, noted_eq_self hknown hassistant⟩

theorem Replies.ranked_again (hprune : env.config.pruneOnGetWork = false) (hsound : t.Sound) :
    Prepares moment.now args t (env.ranked t moment args) ∧
      SameTables t (env.ranked t moment args) := by
  obtain ⟨hreceived, hnoted⟩ := hreplies.received_again hprune
  obtain ⟨-, hprepares, hsame⟩ := ranked_noted env moment args hsound.stored hsound.retriable
  rw [hreceived] at hprepares hsame
  rw [hnoted] at hsame
  exact ⟨hprepares, hsame⟩

theorem Replies.resembles (hprune : env.config.pruneOnGetWork = false) :
    Resembles s (env.ranked s moment args) ∧ Resembles (env.ranked s moment args) t := by
  obtain ⟨counted, hgreets, -, hhands, -⟩ := hreplies.hands
  refine ⟨?_, hgreets.resembles.trans hhands.resembles⟩
  have hreceived := (greets_updateWorker s moment.now args.worker true).resembles
  rw [← received_unpruned s env moment args hprune] at hreceived
  exact hreceived.trans hreplies.prepares.resembles

/-- The second call chooses among the same steps and workers. -/
theorem Replies.alike {again : Scheduler} (hsame : SameTables t again)
    (hresembles : Resembles (env.ranked s moment args) again)
    (hoffer : ∀ ref, (again.stepAt ref).offer = ((env.ranked s moment args).stepAt ref).offer) :
    Alike env.config moment.now args.worker (env.ranked s moment args) again := by
  obtain ⟨worker, hget, -⟩ := hreplies.asked
  obtain ⟨counted, -, hrecalls, hhands, -⟩ := hreplies.hands
  have hworkers : again.activeWorkers = counted.activeWorkers :=
    hsame.activeWorkers.trans hhands.activeWorkers
  have hknown : again.workerAt args.worker = (env.ranked s moment args).workerAt args.worker := by
    rw [workerAt_eq hget, workerAt_eq (hworkers ▸ hrecalls.known args.worker worker hget)]
  have hslots : again.freeSlots env.config moment.now =
      counted.freeSlots env.config moment.now := by
    unfold freeSlots
    rw [hworkers]
  refine ⟨hresembles.steps, hresembles.stepBatchers, hresembles.resources, hresembles.paused,
    hoffer, ?_, hslots.trans (hrecalls.freeSlots ..)⟩
  rw [hknown]
  exact ⟨rfl, rfl, rfl⟩

theorem Replies.choice_again (hprune : env.config.pruneOnGetWork = false) :
    choice env moment args t = (env.ranked t moment args).selectWork args env.config moment.now
      (t.lostStep args) := by
  unfold choice
  rw [(hreplies.received_again hprune).1]

end Again

/-- The rows and the objects are the same. -/
structure KeepsSteps (s t : Scheduler) : Prop where
  steps : t.steps = s.steps
  stepAt : ∀ ref, t.stepAt ref = s.stepAt ref

section Cases

variable {v : Scheduler} {work work' : Work}
variable (hsound : s.Sound) (hafter : t.Sound) (hprune : env.config.pruneOnGetWork = false)
variable (hcurrent : args.currentSteps ≠ none) (hranks : s.RanksDistinct)
variable (hreplies : Replies env moment args s work t)
variable (hagain : Replies env moment args t work' v)

include hsound hprune in
theorem Sound.received_stored : (env.received s moment args).Stored := by
  have hgreets := greets_updateWorker s moment.now args.worker true
  rw [← received_unpruned s env moment args hprune] at hgreets
  exact hgreets.stored hsound.stored

section First

include hsound hprune hreplies

/-- Where the first call finds no lost step, there is none for the ranked loop either. -/
theorem Replies.none_lost (hlost : (env.received s moment args).lostStep args = none)
    (ref : Ref) : ¬(env.ranked s moment args).Lost args ref := by
  have hindex : (env.received s moment args).Indexed := (hsound.received_stored hprune).index
  rw [hreplies.prepares.lost hindex]
  exact hindex.lostStep_none hlost ref

/-- Where it finds one, that is the lost step of the highest rank. -/
theorem Replies.some_lost (hlost : (env.received s moment args).lostStep args = some ref) :
    (env.ranked s moment args).Lost args ref ∧
      ∀ other, (env.ranked s moment args).Lost args other →
        other = ref ∨ (env.ranked s moment args).rankLe other ref := by
  have hindex : (env.received s moment args).Indexed := (hsound.received_stored hprune).index
  obtain ⟨hfound, hhighest⟩ := hindex.lostStep_some hlost
  refine ⟨(hreplies.prepares.lost hindex).mpr hfound, fun other hother => ?_⟩
  rw [hreplies.prepares.resembles.rankLe]
  exact hhighest other ((hreplies.prepares.lost hindex).mp hother)

include hcurrent

theorem Replies.orphaned_ranked (ref : Ref) :
    ref ∉ (env.ranked s moment args).orphanedSteps args.worker :=
  hreplies.prepares.orphanedSteps ((hsound.received_stored hprune).index) hcurrent ref

end First

include hsound hafter hprune hranks hreplies in
/-- Where the second call looks at the same steps, it chooses the same. -/
theorem Replies.same_choice
    (hoffer : ∀ ref, ((env.ranked t moment args).stepAt ref).offer =
      ((env.ranked s moment args).stepAt ref).offer)
    (hlost : t.lostStep args = (env.received s moment args).lostStep args) :
    choice env moment args t = choice env moment args s := by
  obtain ⟨hprepares, hsame⟩ := hreplies.ranked_again hprune hafter
  obtain ⟨hbefore, hthrough⟩ := hreplies.resembles hprune
  have halike := hreplies.alike hsame (hthrough.trans hprepares.resembles) hoffer
  have hindex := hreplies.prepares.index
  rw [hreplies.choice_again hprune, hlost, choice]
  exact halike.selectWork hindex hprepares.index
    (hbefore.ranksDistinct hsound.index hindex hranks) _

include hsound hafter hprune hcurrent hranks hreplies hagain

/-- A call that finds nothing puts back what was put back before. -/
theorem Replies.nothing_again (hbest : (choice env moment args s).bestStep = none) :
    work' = work ∧ KeepsSteps t v := by
  have hselected := selectWork_selected (env.ranked s moment args) args env.config moment.now
    ((env.received s moment args).lostStep args)
  have hidle : (choice env moment args s).batchedSteps = [] := (hselected.idle hbest).1
  have hlost : (env.received s moment args).lostStep args = none := by
    cases hfound : (env.received s moment args).lostStep args with
    | none => rfl
    | some ref => exact absurd ((hselected.taken ref hfound).1.symm.trans hbest) nofun
  have hnone := hreplies.orphaned_ranked hsound hprune hcurrent
  have hunlost := hreplies.none_lost hsound hprune hlost
  obtain ⟨hprepares, hsame⟩ := hreplies.ranked_again hprune hafter
  obtain ⟨counted, hgreets, -, hhands, hwork⟩ := hreplies.hands
  obtain rfl := hhands.eq_of_nothing hbest hidle
  have hranked : ∀ ref, (env.ranked t moment args).stepAt ref = t.stepAt ref := by
    intro ref
    rw [hprepares.object, if_neg]
    rintro ⟨-, horphan⟩
    rw [hgreets.orphanedSteps] at horphan
    exact hnone ref horphan
  have hchoice := hreplies.same_choice hsound hafter hprune hranks
    (fun ref => by rw [hranked, hgreets.stepAt])
    (by
      rw [hlost]
      apply hafter.index.lostStep_eq_none
      intro ref hlostRef
      exact hunlost ref (hlostRef.of_same ((hgreets.filed ref).mp hlostRef.1)
        (hgreets.stepAt ref).symm))
  obtain ⟨counted', hgreets', -, hhands', hwork'⟩ := hagain.hands
  rw [hchoice] at hhands' hwork'
  obtain rfl := hhands'.eq_of_nothing hbest hidle
  refine ⟨?_, hgreets'.steps.trans hprepares.resembles.steps, fun ref => ?_⟩
  · rw [hwork, hwork', Selection.work, Selection.work, hbest]
  · rw [hgreets'.stepAt, hranked]

/-- A step that was handed out on its own is a lost step of the worker. -/
theorem Replies.single_again {best : Ref}
    (hbest : (choice env moment args s).bestStep = some best)
    (hsize : ¬1 < (choice env moment args s).batchedSteps.length)
    (hfiled : (env.ranked s moment args).Filed best)
    (hstatus : ((env.ranked s moment args).stepAt best).status ≠ .batchRunning)
    (hunnamed : ∃ current, args.currentSteps = some current ∧
      ((env.ranked s moment args).stepAt best).id ∉ current) :
    work' = work ∧ KeepsSteps t v := by
  have hselected := selectWork_selected (env.ranked s moment args) args env.config moment.now
    ((env.received s moment args).lostStep args)
  have hnone := hreplies.orphaned_ranked hsound hprune hcurrent
  have hstored := hreplies.prepares.stored (hsound.received_stored hprune)
  obtain ⟨hprepares, hsame⟩ := hreplies.ranked_again hprune hafter
  obtain ⟨hbefore, hthrough⟩ := hreplies.resembles hprune
  have hranksAfter := (hbefore.trans hthrough).ranksDistinct hsound.index hafter.index hranks
  obtain ⟨counted, hgreets, -, hhands, hwork⟩ := hreplies.hands
  have hands := hhands.hands_single hbest hsize
  have hself := hands.single_self
  have hlostBest : t.Lost args best := by
    refine ⟨(hands.single_filed best).mpr ((hgreets.filed best).mpr hfiled), ?_, ?_, ?_⟩
    · rw [hself, Step.handed_status]
    · rw [hself]
      rfl
    · rw [hself, Step.handed_id, hgreets.stepAt]
      exact hunnamed
  have hranked : ∀ ref, (env.ranked t moment args).stepAt ref = t.stepAt ref := by
    intro ref
    rw [hprepares.object, if_neg]
    rintro ⟨-, horphan⟩
    refine hands.single_orphanedSteps (hgreets.stored hstored).index (fun ref => ?_)
      ref horphan
    rw [hgreets.orphanedSteps]
    exact hnone ref
  have hlost : t.lostStep args = some best := by
    apply hafter.index.lostStep_eq hranksAfter hlostBest
    intro other hother
    rcases hands.single_lost hother with hsameRef | hlostCounted
    · exact .inl hsameRef
    · have hlostOther := hlostCounted.of_same ((hgreets.filed other).mp hlostCounted.1)
        (hgreets.stepAt other).symm
      cases hfound : (env.received s moment args).lostStep args with
      | none => exact absurd hlostOther (hreplies.none_lost hsound hprune hfound other)
      | some found =>
          obtain rfl := Option.some.inj ((hselected.taken found hfound).1.symm.trans hbest)
          rw [hthrough.rankLe]
          exact (hreplies.some_lost hsound hprune hfound).2 other hlostOther
  have hselected' := selectWork_selected (env.ranked t moment args) args env.config moment.now
    (t.lostStep args)
  rw [← hreplies.choice_again hprune] at hselected'
  obtain ⟨hbest', hbatched', -⟩ := hselected'.taken best hlost
  have hsize' : ¬1 < (choice env moment args t).batchedSteps.length := by simp [hbatched']
  obtain ⟨counted', hgreets', -, hhands', hwork'⟩ := hagain.hands
  have hands' := hhands'.hands_single hbest' hsize'
  have hcounted : Resembles counted counted' :=
    hhands.resembles.trans (hprepares.resembles.trans hgreets'.resembles)
  refine ⟨?_, ?_, fun ref => ?_⟩
  · rw [hwork', hcounted.work, hwork, Selection.work, Selection.work, hbest, hbest']
    dsimp only
    rw [if_neg hsize, if_neg hsize']
  · exact hhands'.resembles.steps.trans
      (hgreets'.steps.trans hprepares.resembles.steps)
  · rw [hands'.object]
    split
    · rename_i href
      obtain rfl := List.mem_singleton.mp href
      rw [hgreets'.stepAt, hranked, hself, Step.handed_handed]
    · rw [hgreets'.stepAt, hranked]

/-- A batch that was not started is put back and handed out again. -/
theorem Replies.batch_again {batchId : BatchId}
    (hsize : 1 < (choice env moment args s).batchedSteps.length)
    (hid : batchId = env.batchId ((choice env moment args s).batchedSteps.map fun ref =>
      ((env.ranked s moment args).stepAt ref).id))
    (hfiled : ∀ ref ∈ (choice env moment args s).batchedSteps, (env.ranked s moment args).Filed ref)
    (hpending : ∀ ref ∈ (choice env moment args s).batchedSteps,
      ((env.ranked s moment args).stepAt ref).status = .pending)
    (hunclaimed : ∀ ref, (env.ranked s moment args).Filed ref →
      ((env.ranked s moment args).stepAt ref).status = .running →
      ((env.ranked s moment args).stepAt ref).workerRunning = some args.worker →
      ((env.ranked s moment args).stepAt ref).batchId ≠ some batchId) :
    work' = work ∧ KeepsSteps t v := by
  have hselected := selectWork_selected (env.ranked s moment args) args env.config moment.now
    ((env.received s moment args).lostStep args)
  have hbest : (choice env moment args s).bestStep ≠ none := by
    intro hbest
    have hidle : (choice env moment args s).batchedSteps = [] := (hselected.idle hbest).1
    simp [hidle] at hsize
  have hlost : (env.received s moment args).lostStep args = none := by
    cases hfound : (env.received s moment args).lostStep args with
    | none => rfl
    | some ref =>
        have hidle : (choice env moment args s).batchedSteps = [] :=
          (hselected.taken ref hfound).2.1
        simp [hidle] at hsize
  have hunlost := hreplies.none_lost hsound hprune hlost
  have hnone := hreplies.orphaned_ranked hsound hprune hcurrent
  have hstored := hreplies.prepares.stored (hsound.received_stored hprune)
  obtain ⟨hprepares, hsame⟩ := hreplies.ranked_again hprune hafter
  obtain ⟨counted, hgreets, -, hhands, hwork⟩ := hreplies.hands
  have hands := hhands.hands_batch hbest hsize
  simp only [hgreets.stepAt] at hands
  rw [← hid] at hands
  have horphaned : ∀ ref, t.Orphaned args ref ↔ ref ∈ (choice env moment args s).batchedSteps := by
    intro ref
    rw [← hands.batch_orphanedSteps (hgreets.stored hstored).index
      (fun ref href => (hgreets.filed ref).mpr (hfiled ref href))
      (fun ref href => by rw [hgreets.stepAt]; exact hpending ref href)
      (fun ref => by rw [hgreets.orphanedSteps]; exact hnone ref)
      (fun ref hfiledRef => by
        rw [hgreets.stepAt]
        exact hunclaimed ref ((hgreets.filed ref).mp hfiledRef))]
    exact ⟨fun h => h.2, fun h => ⟨hcurrent, h⟩⟩
  have hmember : ∀ ref ∈ (choice env moment args s).batchedSteps,
      (env.ranked t moment args).stepAt ref =
        (((env.ranked s moment args).stepAt ref).reserved args.worker moment.now
          batchId).withStatus moment.now .pending := by
    intro ref href
    rw [hprepares.object, if_pos ((horphaned ref).mpr href), hands.batch_member href,
      hgreets.stepAt]
  have hother : ∀ ref, ref ∉ (choice env moment args s).batchedSteps →
      (env.ranked t moment args).stepAt ref = (env.ranked s moment args).stepAt ref := by
    intro ref href
    rw [hprepares.object, if_neg (mt (horphaned ref).mp href), hands.batch_other href,
      hgreets.stepAt]
  have hchoice := hreplies.same_choice hsound hafter hprune hranks
    (fun ref => by
      by_cases href : ref ∈ (choice env moment args s).batchedSteps
      · rw [hmember ref href, Step.offer_returned _ _ _ _ (hpending ref href)]
      · rw [hother ref href])
    (by
      rw [hlost]
      apply hafter.index.lostStep_eq_none
      intro ref hlostRef
      have hlostCounted := hands.batch_lost hlostRef
      exact hunlost ref (hlostCounted.of_same ((hgreets.filed ref).mp hlostCounted.1)
        (hgreets.stepAt ref).symm))
  obtain ⟨counted', hgreets', -, hhands', hwork'⟩ := hagain.hands
  rw [hchoice] at hhands' hwork'
  have hcounted : Resembles counted counted' :=
    hhands.resembles.trans (hprepares.resembles.trans hgreets'.resembles)
  have hands' := hhands'.hands_batch hbest hsize
  have hids : ∀ ref, (counted'.stepAt ref).id = ((env.ranked s moment args).stepAt ref).id := by
    intro ref
    rw [← hgreets.stepAt]
    exact (congrArg Step.id (hcounted.unmarked ref) :)
  simp only [hids] at hands'
  rw [← hid] at hands'
  refine ⟨?_, hhands'.resembles.steps.trans (hgreets'.steps.trans hprepares.resembles.steps),
    fun ref => ?_⟩
  · rw [hwork', hcounted.work, hwork]
  · by_cases href : ref ∈ (choice env moment args s).batchedSteps
    · rw [hands'.batch_member href, hgreets'.stepAt, hmember ref href,
        Step.reserved_returned _ _ _ _ (hpending ref href), hands.batch_member href,
        hgreets.stepAt]
    · rw [hands'.batch_other href, hgreets'.stepAt, hother ref href, hands.batch_other href,
        hgreets.stepAt]

end Cases

/-- The worker does not say that it runs the step, and runs no step with the id of the
batch. -/
def Unclaimed (s : Scheduler) (args : GetWorkArgs) : Work → Prop
  | .nothing => True
  | .single id _ _ _ => id ∉ args.currentSteps.getD []
  | .batch batchId _ _ _ _ => ∀ ref ∈ s.activeStepsByStatus [.running],
      (s.stepAt ref).workerRunning = some args.worker → (s.stepAt ref).batchId ≠ some batchId

instance (s : Scheduler) (args : GetWorkArgs) (work : Work) :
    Decidable (s.Unclaimed args work) := by
  induction work using Work.casesOn <;> dsimp only [Unclaimed] <;> infer_instance

/-- Only `disable_worker` disables a worker. -/
theorem Replies.enabled_again {work : Work} (hreplies : Replies env moment args s work t)
    (hprune : env.config.pruneOnGetWork = false) (id : WorkerId) :
    (t.workerAt id).enabled = (s.workerAt id).enabled := by
  obtain ⟨received, hgreets, hsame⟩ := hreplies.prepares.greeted
  obtain ⟨counted, hcounts, -, hhands, -⟩ := hreplies.hands
  have hstart := greets_updateWorker s moment.now args.worker true
  rw [← received_unpruned s env moment args hprune] at hstart
  have hhanded : t.workerAt id = counted.workerAt id := by
    unfold workerAt
    rw [hhands.activeWorkers]
  unfold Worker.enabled
  rw [hhanded, (hcounts.worker id).2.2, hsame.workerAt, (hgreets.worker id).2.2,
    (hstart.worker id).2.2]

/-- A run that the ranked loop sees is one that the worker's request met. -/
theorem Replies.running_before {work : Work} (hreplies : Replies env moment args s work t)
    (hprune : env.config.pruneOnGetWork = false)
    (hrunning : ((env.ranked s moment args).stepAt ref).status = .running) :
    (env.ranked s moment args).stepAt ref = s.stepAt ref := by
  have hstart := greets_updateWorker s moment.now args.worker true
  rw [← received_unpruned s env moment args hprune] at hstart
  rw [hreplies.prepares.running ref (by rw [hrunning]; rfl), hstart.stepAt]

/-- The worker asks twice, with nothing in between. -/
theorem Sound.repeats {current : List StepId} (hsound : s.Sound)
    (hlive : env.AnswersLiveSteps s ⟨moment, .getWork args⟩)
    (hafter : (env.after s ⟨moment, .getWork args⟩).Sound)
    (hagain : env.AnswersLiveSteps (env.after s ⟨moment, .getWork args⟩) ⟨moment, .getWork args⟩)
    (hprune : env.config.pruneOnGetWork = false)
    (henabled : (s.workerAt args.worker).enabled = true)
    (hcurrent : args.currentSteps = some current) (hranks : s.RanksDistinct) :
    ∃ pending pending' work,
      env.outcome s ⟨moment, .getWork args⟩ = .ok (.work ⟨pending, work⟩) ∧
      (s.Unclaimed args work →
        env.outcome (env.after s ⟨moment, .getWork args⟩) ⟨moment, .getWork args⟩ =
            .ok (.work ⟨pending', work⟩) ∧
          KeepsSteps (env.after s ⟨moment, .getWork args⟩)
            (env.after (env.after s ⟨moment, .getWork args⟩) ⟨moment, .getWork args⟩)) := by
  obtain ⟨pending, work, houtcome, hreplies⟩ := hsound.replies hlive hprune henabled
  have henabled' := (hreplies.enabled_again hprune args.worker).trans henabled
  obtain ⟨pending', work', houtcome', hreplies'⟩ := hafter.replies hagain hprune henabled'
  refine ⟨pending, pending', work, houtcome, fun hunclaimed => ?_⟩
  suffices hsuffices : work' = work ∧ KeepsSteps _ _ from
    ⟨hsuffices.1 ▸ houtcome', hsuffices.2⟩
  have hnamed : args.currentSteps ≠ none := by simp [hcurrent]
  have hselected := selectWork_selected (env.ranked s moment args) args env.config moment.now
    ((env.received s moment args).lostStep args)
  have henabledReceived : ((env.received s moment args).workerAt args.worker).enabled = true := by
    have hstart := greets_updateWorker s moment.now args.worker true
    rw [← received_unpruned s env moment args hprune] at hstart
    unfold Worker.enabled
    rw [(hstart.worker args.worker).2.2]
    exact henabled
  have hpicks := fun ref => picks_filed env moment args ref hsound.stored hsound.retriable
    henabledReceived hlive.1
  obtain ⟨counted, hgreets, -, -, hwork⟩ := hreplies.hands
  cases hbest : (choice env moment args s).bestStep with
  | none =>
      exact hreplies.nothing_again hsound hafter hprune hnamed hranks hreplies' hbest
  | some best =>
      rw [hwork, Selection.work, hbest] at hunclaimed
      dsimp only at hunclaimed
      by_cases hsize : 1 < (choice env moment args s).batchedSteps.length
      · rw [if_pos hsize] at hunclaimed
        simp only [hgreets.stepAt] at hunclaimed
        refine hreplies.batch_again hsound hafter hprune hnamed hranks hreplies' hsize rfl
          (fun ref href => (hpicks ref ?_).1) (fun ref href => ?_)
          fun ref hfiled hrunning howner => ?_
        · unfold Selection.picks
          exact (if_pos hsize).symm ▸ href
        · have hready := (hselected.batched ref href).1
          simp only [schedulable, Bool.and_eq_true, beq_iff_eq] at hready
          exact hready.1
        · have hbefore := hreplies.running_before hprune hrunning
          rw [hbefore] at hrunning howner ⊢
          apply hunclaimed ref _ howner
          apply hsound.index.mem_activeStepsByStatus.mpr
          exact ⟨((hreplies.resembles hprune).1.filed ref).mp hfiled,
            List.mem_singleton.mpr hrunning⟩
      · rw [if_neg hsize] at hunclaimed
        have hpick := hpicks best (by
          change best ∈ (choice env moment args s).picks
          unfold Selection.picks
          rw [if_neg hsize, hbest]
          exact Option.mem_toList.mpr rfl)
        refine hreplies.single_again hsound hafter hprune hnamed hranks hreplies' hbest hsize
          hpick.1 ?_ ⟨current, hcurrent, ?_⟩
        · rcases hpick.2 with hpending | ⟨-, hrunning, -⟩
          · simp [hpending]
          · simp [hrunning]
        · rw [← hgreets.stepAt]
          simpa [Unclaimed, hcurrent] using hunclaimed

end Scheduler

def handedOut : Except Raised Response → Option Work
  | .ok (.work reply) => some reply.work
  | _ => none

namespace Env

open Scheduler

variable (env : Env)

/-- A request that is made twice in a row is answered with the same work, and changes no step
the second time. -/
structure RepeatsHarmlessly (s : Scheduler) (event : Event) : Prop where
  answers : ∃ work, handedOut (env.outcome s event) = some work
  work : handedOut (env.outcome (env.after s event) event) = handedOut (env.outcome s event)
  steps : (env.after (env.after s event) event).steps = (env.after s event).steps
  stepAt : ∀ ref, (env.after (env.after s event) event).stepAt ref =
    (env.after s event).stepAt ref

/-- An enabled worker says what it runs, in a state in which no two steps have the same
rank. -/
def MayRepeat (s : Scheduler) (args : GetWorkArgs) : Prop :=
  env.config.pruneOnGetWork = false ∧ (s.workerAt args.worker).enabled = true ∧
    args.currentSteps ≠ none ∧ s.RanksDistinct

instance (s : Scheduler) (args : GetWorkArgs) : Decidable (env.MayRepeat s args) := by
  unfold MayRepeat; infer_instance

/-- A worker that asks again gets the same work, unless it claims to have it already. -/
theorem repeatsHarmlessly {resources : Resources} {events : List Event} {moment : Moment}
    {args : GetWorkArgs}
    (hlive : Along env.after env.AnswersLiveSteps (.initial resources)
      (events ++ [⟨moment, .getWork args⟩, ⟨moment, .getWork args⟩]))
    (hmay : env.MayRepeat (env.run (.initial resources) events) args)
    (hunclaimed : ∀ work ∈ handedOut
      (env.outcome (env.run (.initial resources) events) ⟨moment, .getWork args⟩),
      (env.run (.initial resources) events).Unclaimed args work) :
    env.RepeatsHarmlessly (env.run (.initial resources) events) ⟨moment, .getWork args⟩ := by
  obtain ⟨hprune, henabled, hnamed, hranks⟩ := hmay
  obtain ⟨current, hcurrent⟩ := Option.ne_none_iff_exists'.mp hnamed
  obtain ⟨hbefore, hfirst, hsecond, -⟩ := (along_append _ _).mp hlive
  have hstep : ∀ s event, Lasting Sound s → env.AnswersLiveSteps s event →
      Lasting Sound (env.after s event) := fun _ _ hlasting hevent =>
    (Sound.after hlasting (AnswersLiveSteps.handsOut hevent)).1
  have hlasting : Lasting Sound (env.run (.initial resources) events) :=
    runAll_invariant env.after _ (Lasting Sound) hstep (initial_sound resources) hbefore
  obtain ⟨hafter, -⟩ := hstep _ _ hlasting hfirst
  obtain ⟨pending, pending', work, houtcome, hrepeats⟩ :=
    hlasting.1.repeats hfirst hafter hsecond hprune henabled hcurrent hranks
  have hwork := congrArg handedOut houtcome
  obtain ⟨houtcome', hkeeps⟩ := hrepeats (hunclaimed work hwork)
  exact ⟨⟨work, hwork⟩, (congrArg handedOut houtcome').trans hwork.symm, hkeeps.steps,
    hkeeps.stepAt⟩

end Env

/-- The worker asks for work and says what it runs. -/
def runningArgs (current : List StepId) : GetWorkArgs :=
  { worker := firstWorker, currentSteps := some current }

/-- A step of the worker's family, maybe with new dependencies. -/
def addsMember (id : StepId) (value : String) (newDeps : Option (List StepId)) : Request :=
  .addStep
    { worker := firstWorker, stepId := id, family := "F", params := some (Dict.set ∅ "p" value)
      batchable := some true, newDeps := newDeps }

/-- Two steps that make up a batch. -/
def batchedPair : List Event :=
  [ requestAt 1 (.addStepBatcher firstWorker "F" ⟨["p"], none⟩),
    requestAt 2 (addsMember "a" "1" none),
    requestAt 3 (addsMember "b" "2" none) ]

/-- The worker starts the batch, and both members are put back while it runs. -/
def startedPair : List Event :=
  batchedPair ++
    [ requestAt 4 (.getWork (runningArgs [])),
      requestAt 5 (.addStep
        { worker := firstWorker, stepId := "c", status := .running
          batchId := some (batchEnv.batchId ["a", "b"]) }),
      requestAt 6 (.addStep { worker := firstWorker, stepId := "d", status := .done }),
      requestAt 7 (addsMember "a" "1" (some ["d"])),
      requestAt 8 (addsMember "b" "2" (some ["d"])) ]

/-- An assistant outlives its step, and another worker schedules it anew. -/
def shadowedRun : List Event :=
  outlivingRun.take 4 ++
    [ requestAt 603 (schedules secondWorker "b"),
      requestAt 604 (schedules secondWorker "c"),
      requestAt 605 (schedules secondWorker "d"),
      requestAt 606 (.addStep { worker := secondWorker, stepId := "a", status := .done }) ]

/-- A step that the worker names, and a batch with the id of one that it runs, are not
handed out again; and without live steps there is no reply. -/
theorem claimed_work_is_not_repeated :
    (defaultEnv.MayRepeat (defaultEnv.run (.initial ∅) [requestAt 1 (schedules firstWorker "a")])
        (runningArgs ["a"]) ∧
      ¬defaultEnv.RepeatsHarmlessly
        (defaultEnv.run (.initial ∅) [requestAt 1 (schedules firstWorker "a")])
        (requestAt 2 (.getWork (runningArgs ["a"])))) ∧
    (batchEnv.MayRepeat (batchEnv.run (.initial ∅) startedPair) (runningArgs ["c"]) ∧
      ¬batchEnv.RepeatsHarmlessly (batchEnv.run (.initial ∅) startedPair)
        (requestAt 9 (.getWork (runningArgs ["c"])))) ∧
    (defaultEnv.MayRepeat (defaultEnv.run (.initial ∅) shadowedRun) (runningArgs []) ∧
      ¬defaultEnv.RepeatsHarmlessly (defaultEnv.run (.initial ∅) shadowedRun)
        (requestAt 607 (.getWork (runningArgs [])))) := by
  refine ⟨⟨by decide +kernel, fun h => ?_⟩, ⟨by decide +kernel, fun h => ?_⟩,
    ⟨by decide +kernel, fun h => ?_⟩⟩
  · have hwork := h.work
    revert hwork
    decide +kernel
  · have hwork := h.work
    revert hwork
    decide +kernel
  · have hanswers := h.answers
    rw [← Option.isSome_iff_exists] at hanswers
    revert hanswers
    decide +kernel

/-- The pair is handed out twice. -/
theorem unclaimed_batch_is_repeated :
    batchEnv.RepeatsHarmlessly (batchEnv.run (.initial ∅) batchedPair)
      (requestAt 4 (.getWork (runningArgs []))) :=
  batchEnv.repeatsHarmlessly (by decide +kernel) (by decide +kernel) (by decide +kernel)

end Trun
