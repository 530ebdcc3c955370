import Mathlib.Algebra.Ring.Int.Defs
import Trun.Scheduler.Answering

/-!
# What the choice of `get_work` depends on

The ranked loop reads what a step demands, who may run it and whether it is ready, and
of a running step what it uses.  Where no two steps have the same rank, the order in
which the tables list them does not matter.
-/

namespace Trun

/-- A list without ties has one sorted permutation. -/
theorem insertionSort_eq_of_perm {α : Type*} (le : α → α → Prop) [DecidableRel le]
    [Std.Total le] [IsTrans α le] {left right : List α} (hperm : left.Perm right)
    (hanti : ∀ a ∈ left, ∀ b ∈ left, le a b → le b a → a = b) :
    left.insertionSort le = right.insertionSort le := by
  have hsorted := (List.perm_insertionSort le left).trans
    (hperm.trans (List.perm_insertionSort le right).symm)
  refine hsorted.eq_of_pairwise ?_ (List.pairwise_insertionSort le left)
    (List.pairwise_insertionSort le right)
  intro a b ha hb
  apply hanti
  · exact (List.mem_insertionSort le).mp ha
  · exact hperm.mem_iff.mpr ((List.mem_insertionSort le).mp hb)

/-! ## Amounts -/

/-- The amount of a resource in a dictionary. -/
def tally (amounts : Resources) (resource : String) : Int :=
  (amounts.entries.map fun entry => if entry.1 = resource then entry.2 else 0).sum

theorem getD_addResources (used amounts : Resources) (resource : String) :
    (addResources used amounts).getD resource 0 =
      used.getD resource 0 + tally amounts resource := by
  have hentries : ∀ (entries : List (String × Int)) (used : Resources),
      (entries.foldl (fun used entry => used.modify entry.1 0 (· + entry.2)) used).getD
        resource 0 = used.getD resource 0 +
          (entries.map fun entry => if entry.1 = resource then entry.2 else 0).sum := by
    intro entries
    induction entries with
    | nil => intro used; simp
    | cons entry rest ih =>
        intro used
        rw [List.foldl_cons, ih, Dict.getD_modify, List.map_cons, List.sum_cons]
        by_cases hentry : entry.1 = resource
        · simp [hentry, add_assoc]
        · simp [hentry, Ne.symm hentry]
  exact hentries amounts.entries used

namespace Scheduler

variable {s t : Scheduler}

/-- `_used_resources` adds up what the running steps are charged. -/
theorem getD_usedResources (s : Scheduler) (resource : String) :
    s.usedResources.getD resource 0 = ((s.activeStepsByStatus [.running]).map
      fun ref => tally (s.stepAt ref).charged resource).sum := by
  have hrefs : ∀ (refs : List Ref) (used : Resources),
      (refs.foldl (fun used ref => addResources used (s.stepAt ref).charged) used).getD
        resource 0 = used.getD resource 0 +
          (refs.map fun ref => tally (s.stepAt ref).charged resource).sum := by
    intro refs
    induction refs with
    | nil => intro used; simp
    | cons ref rest ih =>
        intro used
        rw [List.foldl_cons, ih, getD_addResources, List.map_cons, List.sum_cons, add_assoc]
  have htotal := hrefs (s.activeStepsByStatus [.running]) ∅
  rwa [Dict.getD_empty, zero_add] at htotal

/-- `_has_resources` reads amounts only. -/
theorem hasResources_congr (hresources : t.resources = s.resources) (needed : Resources)
    {used used' : Resources}
    (hused : ∀ resource, used'.getD resource 0 = used.getD resource 0) :
    t.hasResources needed used' = s.hasResources needed used := by
  unfold hasResources limit
  rw [hresources]
  simp only [hused]

end Scheduler

/-! ## Ranks -/

namespace Scheduler

/-- No two steps of the table have the same rank. -/
def RanksDistinct (s : Scheduler) : Prop :=
  ∀ left ∈ s.activeSteps, ∀ right ∈ s.activeSteps,
    (s.stepAt left).priority = (s.stepAt right).priority →
      (s.stepAt left).time = (s.stepAt right).time → left = right

instance (s : Scheduler) : Decidable s.RanksDistinct := by
  unfold RanksDistinct; infer_instance

theorem rankLe_total (s : Scheduler) (left right : Ref) :
    s.rankLe left right ∨ s.rankLe right left := by
  unfold rankLe
  rcases lt_trichotomy (s.stepAt left).priority (s.stepAt right).priority with h | h | h
  · exact .inl (.inl h)
  · rcases le_total (s.stepAt left).time (s.stepAt right).time with h' | h'
    · exact .inr (.inr ⟨h.symm, h'⟩)
    · exact .inl (.inr ⟨h, h'⟩)
  · exact .inr (.inl h)

theorem rankLe_trans {s : Scheduler} {left middle right : Ref} (hfirst : s.rankLe left middle)
    (hlast : s.rankLe middle right) : s.rankLe left right := by
  rcases hfirst with hlt | ⟨heq, hle⟩
  · rcases hlast with hlt' | ⟨heq', -⟩
    · exact .inl (hlt.trans hlt')
    · exact .inl (heq' ▸ hlt)
  · rcases hlast with hlt' | ⟨heq', hle'⟩
    · exact .inl (heq ▸ hlt')
    · exact .inr ⟨heq.trans heq', hle'.trans hle⟩

instance (s : Scheduler) : Std.Total s.rankLe := ⟨s.rankLe_total⟩

instance (s : Scheduler) : IsTrans Ref s.rankLe := ⟨fun _ _ _ => rankLe_trans⟩

instance (s : Scheduler) : Std.Total fun left right => s.rankLe right left :=
  ⟨fun left right => s.rankLe_total right left⟩

instance (s : Scheduler) : IsTrans Ref fun left right => s.rankLe right left :=
  ⟨fun _ _ _ hfirst hlast => rankLe_trans hlast hfirst⟩

theorem RanksDistinct.antisymm {s : Scheduler} (hranks : s.RanksDistinct) {left right : Ref}
    (hleft : left ∈ s.activeSteps) (hright : right ∈ s.activeSteps)
    (hle : s.rankLe left right) (hge : s.rankLe right left) : left = right := by
  rcases hle with hlt | ⟨heq, hlater⟩
  · rcases hge with hlt' | ⟨heq', -⟩
    · exact absurd hlt' (lt_asymm hlt)
    · exact absurd hlt (heq' ▸ lt_irrefl _)
  · rcases hge with hlt' | ⟨-, hsooner⟩
    · exact absurd hlt' (heq ▸ lt_irrefl _)
    · exact hranks left hleft right hright heq (le_antisymm hsooner hlater)

end Scheduler

/-! ## States that offer the same choice -/

namespace Step

/-- What the ranked loop may read of a step: of its run, only that of a running one. -/
def offer (step : Step) : Step :=
  { step with
    updated := 0, batchId := none, resourcesShared := false, timeRunning := none
    workerRunning := if step.status = .running then step.workerRunning else none
    resourcesRunning := if step.status = .running then step.resourcesRunning else none }

end Step

namespace Scheduler

variable {s t : Scheduler}

/-- `get_work` of the worker has the same choice in both states. -/
structure Alike (config : Config) (now : Time) (worker : WorkerId) (s t : Scheduler) : Prop where
  steps : t.steps = s.steps
  stepBatchers : t.stepBatchers = s.stepBatchers
  resources : t.resources = s.resources
  paused : t.paused = s.paused
  offer : ∀ ref, (t.stepAt ref).offer = (s.stepAt ref).offer
  worker : (t.workerAt worker).id = (s.workerAt worker).id ∧
    (t.workerAt worker).steps = (s.workerAt worker).steps ∧
    (t.workerAt worker).assistant = (s.workerAt worker).assistant
  slots : t.freeSlots config now = s.freeSlots config now

section Alike

variable {config : Config} {now : Time} {worker : WorkerId}
variable (halike : Alike config now worker s t)

include halike

theorem Alike.getStep (id : StepId) : t.getStep id = s.getStep id := by
  unfold Scheduler.getStep
  rw [halike.steps]

theorem Alike.status (ref : Ref) : (t.stepAt ref).status = (s.stepAt ref).status :=
  (congrArg Step.status (halike.offer ref) :)

theorem Alike.filed (ref : Ref) : t.Filed ref ↔ s.Filed ref := by
  have hid : (t.stepAt ref).id = (s.stepAt ref).id :=
    (congrArg Step.id (halike.offer ref) :)
  unfold Filed
  rw [halike.getStep, hid]

theorem Alike.resources_eq (ref : Ref) :
    (t.stepAt ref).resources = (s.stepAt ref).resources :=
  (congrArg Step.resources (halike.offer ref) :)

/-- A running step is charged the same. -/
theorem Alike.running {ref : Ref} (hrunning : (s.stepAt ref).status = .running) :
    (t.stepAt ref).workerRunning = (s.stepAt ref).workerRunning ∧
      (t.stepAt ref).charged = (s.stepAt ref).charged := by
  have hrunning' := (halike.status ref).trans hrunning
  have howner := (congrArg Step.workerRunning (halike.offer ref) :)
  have hcharged := (congrArg Step.resourcesRunning (halike.offer ref) :)
  simp only [Step.offer, hrunning, hrunning', if_true] at howner hcharged
  refine ⟨howner, ?_⟩
  unfold Step.charged
  rw [hcharged, halike.resources_eq]

theorem Alike.schedulable : t.schedulable = s.schedulable := by
  funext ref
  have hdeps : (t.stepAt ref).deps = (s.stepAt ref).deps :=
    (congrArg Step.deps (halike.offer ref) :)
  unfold Scheduler.schedulable
  simp only [halike.status, hdeps, halike.getStep]

theorem Alike.extendBatch : t.extendBatch = s.extendBatch := by
  funext best selection ref
  have hparts : ∀ ref, (t.stepAt ref).family = (s.stepAt ref).family ∧
      (t.stepAt ref).batchable = (s.stepAt ref).batchable ∧
      (t.stepAt ref).params = (s.stepAt ref).params := fun ref =>
    ⟨(congrArg Step.family (halike.offer ref) :), (congrArg Step.batchable (halike.offer ref) :),
      (congrArg Step.params (halike.offer ref) :)⟩
  unfold Scheduler.extendBatch joinsBatch
  simp only [(hparts _).1, (hparts _).2.1, (hparts _).2.2, halike.resources_eq,
    halike.schedulable]

theorem Alike.reserveRunning : t.reserveRunning = s.reserveRunning := by
  funext selection ref
  unfold Scheduler.reserveRunning
  dsimp only
  rw [halike.status]
  cases hstatus : (s.stepAt ref).status with
  | running =>
      obtain ⟨howner, hcharged⟩ := halike.running hstatus
      rw [howner, hcharged]
  | _ => rfl

theorem Alike.reserveGreedily (args : GetWorkArgs) :
    t.reserveGreedily args = s.reserveGreedily args := by
  funext selection ref
  have hworkers : (t.stepAt ref).workers = (s.stepAt ref).workers :=
    (congrArg Step.workers (halike.offer ref) :)
  unfold Scheduler.reserveGreedily
  simp only [hworkers, halike.resources_eq]

theorem Alike.chooseStep (args : GetWorkArgs) : t.chooseStep args = s.chooseStep args := by
  funext selection ref
  have hparts : (t.stepAt ref).family = (s.stepAt ref).family ∧
      (t.stepAt ref).batchable = (s.stepAt ref).batchable ∧
      (t.stepAt ref).params = (s.stepAt ref).params :=
    ⟨(congrArg Step.family (halike.offer ref) :), (congrArg Step.batchable (halike.offer ref) :),
      (congrArg Step.params (halike.offer ref) :)⟩
  unfold Scheduler.chooseStep getBatcher
  simp only [hparts.1, hparts.2.1, hparts.2.2, halike.stepBatchers]

/-- One turn of the ranked loop. -/
theorem Alike.considerStep (args : GetWorkArgs) {used used' : Resources}
    (hused : ∀ resource, used'.getD resource 0 = used.getD resource 0) :
    t.considerStep args used' = s.considerStep args used := by
  funext selection ref
  have hparts : (t.stepAt ref).runnable = (s.stepAt ref).runnable ∧
      (t.stepAt ref).workers = (s.stepAt ref).workers :=
    ⟨(congrArg Step.runnable (halike.offer ref) :), (congrArg Step.workers (halike.offer ref) :)⟩
  have hhas : ∀ needed used, t.hasResources needed used = s.hasResources needed used :=
    fun needed used => hasResources_congr halike.resources needed fun _ => rfl
  have hused' : ∀ needed, s.hasResources needed used' = s.hasResources needed used :=
    fun needed => hasResources_congr rfl needed hused
  unfold Scheduler.considerStep
  simp only [halike.extendBatch, halike.reserveRunning, halike.schedulable,
    halike.reserveGreedily, halike.chooseStep, halike.resources_eq, hparts.1, hparts.2,
    hhas, hused']

/-! ## The steps to look at -/

theorem Alike.perm_active (hs : s.Indexed) (ht : t.Indexed) {statuses : List Status}
    (hnodup : statuses.Nodup) :
    (t.activeStepsByStatus statuses).Perm (s.activeStepsByStatus statuses) := by
  apply (List.perm_ext_iff_of_nodup (ht.nodup_activeStepsByStatus hnodup)
    (hs.nodup_activeStepsByStatus hnodup)).mpr
  intro ref
  rw [ht.mem_activeStepsByStatus, hs.mem_activeStepsByStatus, halike.filed, halike.status]

theorem Alike.size_bucket (hs : s.Indexed) (ht : t.Indexed) (status : Status) :
    (t.bucket status).size = (s.bucket status).size := by
  have hlength := (halike.perm_active hs ht (List.nodup_singleton status)).length_eq
  simpa [activeStepsByStatus, Dict.size, Dict.values] using hlength

/-- `get_steps` of the worker lists the same steps, in another order only where it lists
steps of the table. -/
theorem Alike.getSteps (hs : s.Indexed) (ht : t.Indexed) {statuses : List Status}
    (hnodup : statuses.Nodup) :
    (t.workerAt worker).getSteps t statuses = (s.workerAt worker).getSteps s statuses ∨
      (((t.workerAt worker).getSteps t statuses).Perm
          ((s.workerAt worker).getSteps s statuses) ∧
        ∀ ref ∈ (s.workerAt worker).getSteps s statuses, s.Filed ref) := by
  obtain ⟨hid, hlisted, -⟩ := halike.worker
  have hworkers : ∀ ref, (t.stepAt ref).workers = (s.stepAt ref).workers := fun ref =>
    (congrArg Step.workers (halike.offer ref) :)
  unfold Worker.getSteps Worker.selfSteps Worker.stateSteps
  simp only [hid, hlisted, halike.size_bucket hs ht, halike.status, hworkers]
  split
  · exact .inl rfl
  · refine .inr ⟨(halike.perm_active hs ht hnodup).filter _, fun ref href => ?_⟩
    exact (hs.mem_activeStepsByStatus.mp (List.mem_filter.mp href).1).1

theorem Alike.isTrivialWorker (hs : s.Indexed) (ht : t.Indexed) :
    (t.workerAt worker).isTrivialWorker t = (s.workerAt worker).isTrivialWorker s := by
  unfold Worker.isTrivialWorker
  rw [halike.worker.2.2]
  simp only [halike.resources_eq]
  rcases halike.getSteps hs ht (List.nodup_singleton .pending) with hsame | ⟨hperm, -⟩
  · rw [hsame]
  · rw [hperm.all_eq]

theorem Alike.usedResources (hs : s.Indexed) (ht : t.Indexed) (resource : String) :
    t.usedResources.getD resource 0 = s.usedResources.getD resource 0 := by
  rw [getD_usedResources, getD_usedResources]
  have hperm := halike.perm_active hs ht (List.nodup_singleton .running)
  calc ((t.activeStepsByStatus [.running]).map fun ref =>
        tally (t.stepAt ref).charged resource).sum
      = ((s.activeStepsByStatus [.running]).map fun ref =>
        tally (t.stepAt ref).charged resource).sum := (hperm.map _).sum_eq
    _ = _ := by
        congr 1
        apply List.map_congr_left
        intro ref href
        have hstatus := (hs.mem_activeStepsByStatus.mp href).2
        rw [(halike.running (List.mem_singleton.mp hstatus)).2]

theorem Alike.rankLe : t.rankLe = s.rankLe := by
  funext left right
  have hparts : ∀ ref, (t.stepAt ref).priority = (s.stepAt ref).priority ∧
      (t.stepAt ref).time = (s.stepAt ref).time := fun ref =>
    ⟨(congrArg Step.priority (halike.offer ref) :), (congrArg Step.time (halike.offer ref) :)⟩
  unfold Scheduler.rankLe
  rw [(hparts left).1, (hparts left).2, (hparts right).1, (hparts right).2]

theorem Alike.sortByRankReverse : t.sortByRankReverse = s.sortByRankReverse := by
  funext refs
  unfold Scheduler.sortByRankReverse
  simp only [halike.rankLe]

/-- The steps are ranked in the same order. -/
theorem Alike.sorted (hs : s.Indexed) (hranks : s.RanksDistinct) {refs refs' : List Ref}
    (hsame : refs' = refs ∨ (refs'.Perm refs ∧ ∀ ref ∈ refs, s.Filed ref)) :
    t.sortByRankReverse refs' = s.sortByRankReverse refs := by
  rw [halike.sortByRankReverse]
  rcases hsame with rfl | ⟨hperm, hfiled⟩
  · rfl
  · have hactive : ∀ ref ∈ refs', ref ∈ s.activeSteps := fun ref href =>
      hs.mem_activeSteps.mpr (hfiled ref (hperm.mem_iff.mp href))
    apply insertionSort_eq_of_perm _ hperm
    intro left hleft right hright hle hge
    exact hranks.antisymm (hactive left hleft) (hactive right hright) hge hle

end Alike

/-- The ranked loop chooses the same. -/
theorem Alike.selectWork {config : Config} {now : Time} {args : GetWorkArgs}
    (halike : Alike config now args.worker s t) (hs : s.Indexed) (ht : t.Indexed)
    (hranks : s.RanksDistinct) (lost : Option Ref) :
    t.selectWork args config now lost = s.selectWork args config now lost := by
  have hused := halike.usedResources hs ht
  have hnodup : [Status.pending, Status.running].Nodup := by decide
  unfold Scheduler.selectWork relevantSteps
  dsimp only
  rw [halike.paused, halike.isTrivialWorker hs ht]
  split
  · rw [halike.sortByRankReverse, halike.considerStep args fun _ => rfl]
  · split
    · rw [halike.considerStep args fun _ => rfl,
        halike.sorted hs hranks (halike.getSteps hs ht hnodup)]
    · rw [halike.considerStep args hused, halike.slots, halike.sorted hs hranks (.inr
        ⟨halike.perm_active hs ht hnodup, fun ref href => (hs.mem_activeStepsByStatus.mp href).1⟩)]

end Scheduler

end Trun
