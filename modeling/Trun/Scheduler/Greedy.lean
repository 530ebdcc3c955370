import Trun.Program.Scan
import Trun.Scheduler.Choosing
import Trun.Scheduler.Eligibility
import Trun.Scheduler.Listings

/-!
# The best step

`get_work` keeps two accounts: what the running steps use, and what the steps of higher rank would
use if every worker took them as soon as it has a free slot.  A worker gets the step of the
highest rank that fits both.
-/

namespace Trun

open Program

namespace Scheduler

variable (s : Scheduler) (args : GetWorkArgs)

/-! ## Two accounts -/

/-- Pending, with all dependencies done. -/
def Ready (ref : Ref) : Prop :=
  (s.stepAt ref).status = .pending ∧
    ∀ dep ∈ (s.stepAt ref).deps.elems, ∃ target ∈ s.getStep dep, (s.stepAt target).status = .done

instance (ref : Ref) : Decidable (s.Ready ref) := by
  unfold Ready; infer_instance

/-- The amounts fit the limits on top of a total. -/
def Fits (needed : Resources) (total : String → Int) : Prop :=
  ∀ entry ∈ needed.entries, entry.2 + total entry.1 ≤ s.limit entry.1

instance (needed : Resources) (total : String → Int) : Decidable (s.Fits needed total) := by
  unfold Fits; infer_instance

/-- What the running steps use. -/
def inUse (resource : String) : Int :=
  ((s.activeStepsByStatus [.running]).map fun ref => tally (s.stepAt ref).charged resource).sum

/-- The worker asked for work recently. -/
def asks (config : Config) (now : Time) (worker : WorkerId) : Bool :=
  match s.activeWorkers.get? worker with
  | none => false
  | some found =>
    match found.lastGetWork with
    | none => false
    | some last => decide (now - config.workerDisconnectDelay < last)

def announced (worker : WorkerId) : Int := (s.workerAt worker).info.workers.getD 1

/-- The workers for which the step may be reserved. -/
def candidates (ref : Ref) : List WorkerId :=
  (s.stepAt ref).workers.elems ++ if args.assistant then [args.worker] else []

/-- What is reserved down to some rank, and the slots that are left. -/
structure Ledger where
  reserved : String → Int
  slots : WorkerId → Int

namespace Ledger

/-- Nothing is reserved. -/
def blank (slots : WorkerId → Int) : Ledger := ⟨fun _ => 0, slots⟩

/-- A slot of the worker and some amounts are used. -/
def charge (ledger : Ledger) (worker : WorkerId) (amounts : Resources) : Ledger where
  reserved resource := ledger.reserved resource + tally amounts resource
  slots := Function.update ledger.slots worker (ledger.slots worker - 1)

end Ledger

section Accounts

variable (active : WorkerId → Bool) (used : String → Int)

def CanTake (ref : Ref) : Prop := s.mayRun args ref = true ∧ s.Fits (s.stepAt ref).resources used

instance (ref : Ref) : Decidable (s.CanTake args used ref) := by
  unfold CanTake; infer_instance

/-- The ledger with the step: a running one uses a slot of its worker, and one that is ready, fits
and has to wait uses the first free slot of its workers. -/
def pass (ledger : Ledger) (ref : Ref) : Ledger :=
  let step := s.stepAt ref
  if step.status = .running then
    match step.workerRunning with
    | some owner => if active owner then ledger.charge owner step.charged else ledger
    | none => ledger
  else if s.Ready ref ∧ s.Fits step.resources ledger.reserved ∧ ¬s.CanTake args used ref then
    match (s.candidates args ref).find? fun worker => active worker && 0 < ledger.slots worker with
    | some worker => ledger.charge worker step.resources
    | none => ledger
  else ledger

/-- The worker can take the step, and it fits on top of the ledger. -/
def Takes (ledger : Ledger) (ref : Ref) : Prop :=
  s.Ready ref ∧ s.CanTake args used ref ∧ s.Fits (s.stepAt ref).resources ledger.reserved

instance (ledger : Ledger) (ref : Ref) : Decidable (s.Takes args used ledger ref) := by
  unfold Takes; infer_instance

end Accounts

/-- The pending and the running steps, down the rank order. -/
structure Ranking (order : List Ref) : Prop where
  mem : ∀ ref, ref ∈ order ↔
    s.Filed ref ∧ ((s.stepAt ref).status = .pending ∨ (s.stepAt ref).status = .running)
  nodup : order.Nodup
  descends : order.Pairwise fun higher lower => s.rankLe lower higher

/-- The ledger at the rank of the step. -/
def ledgerAt (config : Config) (now : Time) (order : List Ref) (ref : Ref) : Ledger :=
  stateAt (s.pass args (s.asks config now) s.inUse) (.blank s.announced) order ref

/-- The worker may run the step, which is ready and fits on top of what is in use and on top of
what is reserved at its rank. -/
def Available (config : Config) (now : Time) (order : List Ref) (ref : Ref) : Prop :=
  ref ∈ order ∧ s.Takes args s.inUse (s.ledgerAt args config now order ref) ref

/-- Nothing is handed out where no step is available, and else the one of the highest rank. -/
structure PicksBest (config : Config) (now : Time) (order : List Ref) (work : Work) : Prop where
  nothing : work = .nothing ↔ ∀ ref, ¬s.Available args config now order ref
  best : work ≠ .nothing → ∃ best, s.Available args config now order best ∧
    work.stepIds.head? = some (s.stepAt best).id ∧
    ∀ other, s.Available args config now order other → s.rankLe other best

/-! ## The accounts of the ranked loop -/

variable {s args}

theorem hasResources_iff {needed used : Resources} {total : String → Int}
    (hused : ∀ resource, used.getD resource 0 = total resource) :
    s.hasResources needed used = true ↔ s.Fits needed total := by
  simp only [hasResources, List.all_eq_true, decide_eq_true_eq, hused, Fits]

theorem schedulable_iff {ref : Ref} : s.schedulable ref = true ↔ s.Ready ref := by
  simp only [schedulable, Bool.and_eq_true, beq_iff_eq, List.all_eq_true, Ready]
  refine and_congr_right fun _ => forall₂_congr fun dep _ => ?_
  cases hget : s.getStep dep with
  | none => simp
  | some target => simp

/-- The local variables of the loop stand for the ledger. -/
structure Mirrors (active : WorkerId → Bool) (selection : Selection) (ledger : Ledger) : Prop where
  resources : ∀ resource, selection.greedyResources.getD resource 0 = ledger.reserved resource
  known : ∀ worker, selection.greedyWorkers.contains worker = active worker
  slots : ∀ worker, active worker = true →
    selection.greedyWorkers.getD worker 0 = ledger.slots worker

section Mirrors

variable {active : WorkerId → Bool} {selection other : Selection} {ledger : Ledger}

theorem Mirrors.congr (hmirrors : Mirrors active selection ledger)
    (hresources : other.greedyResources = selection.greedyResources)
    (hworkers : other.greedyWorkers = selection.greedyWorkers) : Mirrors active other ledger where
  resources := hresources ▸ hmirrors.resources
  known := hworkers ▸ hmirrors.known
  slots := hworkers ▸ hmirrors.slots

/-- A slot is free in the ledger where the loop finds one. -/
theorem Mirrors.free (hmirrors : Mirrors active selection ledger) (worker : WorkerId) :
    decide (0 < selection.greedyWorkers.getD worker 0) =
      (active worker && decide (0 < ledger.slots worker)) := by
  cases hactive : active worker with
  | false =>
      have habsent : selection.greedyWorkers.get? worker = none := by
        have hknown := hmirrors.known worker
        rw [hactive, Dict.contains, Option.isSome_eq_false_iff, Option.isNone_iff_eq_none] at hknown
        exact hknown
      rw [Dict.getD, habsent]
      rfl
  | true => rw [hmirrors.slots worker hactive, Bool.true_and]

theorem Mirrors.charge (hmirrors : Mirrors active selection ledger) {worker : WorkerId}
    (hactive : active worker = true) (amounts : Resources) :
    Mirrors active
      { selection with
        greedyWorkers := selection.greedyWorkers.modify worker 0 (· - 1)
        greedyResources := addResources selection.greedyResources amounts }
      (ledger.charge worker amounts) where
  resources resource := by
    rw [getD_addResources, hmirrors.resources]
    rfl
  known other := by
    rw [Bool.eq_iff_iff, Dict.contains_modify, hmirrors.known]
    apply or_iff_right_of_imp
    rintro rfl
    exact hactive
  slots other hother := by
    rw [Dict.getD_modify, hmirrors.slots other hother]
    by_cases heq : other = worker
    · subst heq
      rw [if_pos rfl]
      exact (Function.update_self other _ ledger.slots).symm
    · rw [if_neg heq]
      exact (Function.update_of_ne heq ..).symm

/-- A running step. -/
theorem Mirrors.running (hmirrors : Mirrors active selection ledger) {ref : Ref}
    (hrunning : (s.stepAt ref).status = .running) (used : String → Int) :
    Mirrors active (s.reserveRunning selection ref) (s.pass args active used ledger ref) := by
  unfold reserveRunning pass
  dsimp only
  rw [if_pos hrunning, hrunning]
  cases howner : (s.stepAt ref).workerRunning with
  | none => exact hmirrors
  | some owner =>
      dsimp only
      rw [hmirrors.known]
      cases hactive : active owner with
      | false => exact hmirrors
      | true => exact hmirrors.charge hactive _

/-- A step that has to wait. -/
theorem Mirrors.waiting (hmirrors : Mirrors active selection ledger) {ref : Ref}
    {used : String → Int} (hready : s.Ready ref)
    (hfits : s.Fits (s.stepAt ref).resources ledger.reserved) (hwaits : ¬s.CanTake args used ref) :
    Mirrors active (s.reserveGreedily args selection ref) (s.pass args active used ledger ref) := by
  have hpending : (s.stepAt ref).status ≠ .running := by simp [hready.1]
  have hsame : (s.candidates args ref).find? (fun worker =>
        decide (0 < selection.greedyWorkers.getD worker 0)) =
      (s.candidates args ref).find? fun worker => active worker && 0 < ledger.slots worker := by
    simp only [hmirrors.free]
  unfold pass
  dsimp only
  rw [if_neg hpending, if_pos ⟨hready, hfits, hwaits⟩, ← hsame]
  unfold reserveGreedily
  dsimp only
  rw [show (s.stepAt ref).workers.elems ++ (if args.assistant then [args.worker] else []) =
    s.candidates args ref from rfl]
  cases hfind : (s.candidates args ref).find? fun worker =>
      decide (0 < selection.greedyWorkers.getD worker 0) with
  | none => exact hmirrors
  | some worker =>
      have hfree := List.find?_some hfind
      rw [hmirrors.free, Bool.and_eq_true] at hfree
      exact hmirrors.charge hfree.1 _

end Mirrors

theorem reserveRunning_of_ne {selection : Selection} {ref : Ref}
    (hstatus : (s.stepAt ref).status ≠ .running) : s.reserveRunning selection ref = selection := by
  unfold reserveRunning
  dsimp only
  split
  · exact absurd ‹_› hstatus
  · rfl

section Loop

variable {active : WorkerId → Bool} {used : Resources} {total : String → Int}
variable {selection : Selection} {ledger : Ledger}

/-- The loop takes the step. -/
theorem considerStep_takes (hmirrors : Mirrors active selection ledger)
    (hused : ∀ resource, used.getD resource 0 = total resource)
    (hbest : selection.bestStep = none) {ref : Ref} (htakes : s.Takes args total ledger ref) :
    (s.considerStep args used selection ref).bestStep = some ref := by
  obtain ⟨hready, ⟨hmay, hfits⟩, hreserved⟩ := htakes
  have hpending : (s.stepAt ref).status ≠ .running := by simp [hready.1]
  unfold considerStep
  rw [hbest]
  dsimp only
  rw [reserveRunning_of_ne hpending, schedulable_iff.mpr hready,
    (hasResources_iff hmirrors.resources).mpr hreserved, Bool.and_self, if_pos rfl]
  have hcan : (args.assistant && (s.stepAt ref).runnable ||
      decide (args.worker ∈ (s.stepAt ref).workers)) = true := hmay
  rw [hcan, (hasResources_iff hused).mpr hfits, Bool.and_self, if_pos rfl]
  exact (chooseStep_cases s args selection ref).1

/-- The loop passes over the step. -/
theorem considerStep_passes (hmirrors : Mirrors active selection ledger)
    (hused : ∀ resource, used.getD resource 0 = total resource)
    (hbest : selection.bestStep = none) {ref : Ref} (htakes : ¬s.Takes args total ledger ref) :
    (s.considerStep args used selection ref).bestStep = none ∧
      Mirrors active (s.considerStep args used selection ref)
        (s.pass args active total ledger ref) := by
  unfold considerStep
  rw [hbest]
  dsimp only
  by_cases hrunning : (s.stepAt ref).status = .running
  · have hnot : s.schedulable ref = false := by simp [schedulable, hrunning]
    rw [hnot, Bool.false_and, if_neg Bool.false_ne_true]
    exact ⟨(reserveRunning_keeps s selection ref).1.trans hbest, hmirrors.running hrunning _⟩
  · rw [reserveRunning_of_ne hrunning]
    by_cases hready : s.Ready ref ∧ s.Fits (s.stepAt ref).resources ledger.reserved
    · have hwaits : ¬s.CanTake args total ref := fun hcan => htakes ⟨hready.1, hcan, hready.2⟩
      rw [schedulable_iff.mpr hready.1, (hasResources_iff hmirrors.resources).mpr hready.2,
        Bool.and_self, if_pos rfl]
      have hnot : ¬((args.assistant && (s.stepAt ref).runnable ||
          decide (args.worker ∈ (s.stepAt ref).workers)) &&
            s.hasResources (s.stepAt ref).resources used) = true := by
        rw [Bool.and_eq_true, hasResources_iff hused]
        exact hwaits
      rw [if_neg hnot]
      exact ⟨(reserveGreedily_keeps s args selection ref).1.trans hbest,
        hmirrors.waiting hready.1 hready.2 hwaits⟩
    · have hnot : ¬(s.schedulable ref &&
          s.hasResources (s.stepAt ref).resources selection.greedyResources) = true := by
        rw [Bool.and_eq_true, schedulable_iff, hasResources_iff hmirrors.resources]
        exact hready
      have hpass : s.pass args active total ledger ref = ledger := by
        unfold pass
        dsimp only
        rw [if_neg hrunning, if_neg fun h => hready ⟨h.1, h.2.1⟩]
      rw [if_neg hnot, hpass]
      exact ⟨hbest, hmirrors⟩

/-- The ranked loop is the scan. -/
theorem bestStep_eq_choose (hmirrors : Mirrors active selection ledger)
    (hused : ∀ resource, used.getD resource 0 = total resource)
    (hbest : selection.bestStep = none) (refs : List Ref) :
    (refs.foldl (s.considerStep args used) selection).bestStep =
      choose (s.pass args active total) (s.Takes args total) ledger refs := by
  induction refs generalizing selection ledger with
  | nil => exact hbest
  | cons ref rest ih =>
      rw [List.foldl_cons, choose]
      by_cases htakes : s.Takes args total ledger ref
      · rw [if_pos htakes]
        exact bestStep_kept (considerStep_takes hmirrors hused hbest htakes) rest
      · rw [if_neg htakes]
        obtain ⟨hnone, hpassed⟩ := considerStep_passes hmirrors hused hbest htakes
        exact ih hpassed hnone

end Loop

/-! ## The start of the loop -/

/-- Slots are entered by the ids of the workers, which are their keys. -/
private theorem get?_enterSlots (recent : Worker → Bool) {entries : List (WorkerId × Worker)}
    (slots : Dict WorkerId Int) (hnodup : (entries.map Prod.fst).Nodup)
    (hids : ∀ entry ∈ entries, entry.2.id = entry.1) (worker : WorkerId) :
    (((entries.map Prod.snd).filter recent).foldl
      (fun slots worker => slots.set worker.id (worker.info.workers.getD 1)) slots).get? worker =
      match entries.lookup worker with
      | none => slots.get? worker
      | some found =>
          if recent found then some (found.info.workers.getD 1) else slots.get? worker := by
  induction entries generalizing slots with
  | nil => rfl
  | cons entry rest ih =>
      obtain ⟨id, found⟩ := entry
      obtain ⟨hfirst, hrest⟩ := List.nodup_cons.mp hnodup
      obtain ⟨hid, hothers⟩ := List.forall_mem_cons.mp hids
      dsimp only at hid
      subst hid
      rw [List.map_cons, List.filter_cons, List.lookup_cons]
      by_cases hworker : worker = found.id
      · subst hworker
        have hlater : rest.lookup found.id = none := by
          rw [List.lookup_eq_none_iff]
          intro other hother
          exact bne_iff_ne.mpr fun h => hfirst (List.mem_map.mpr ⟨other, hother, h.symm⟩)
        rw [beq_self_eq_true]
        dsimp only
        cases recent found with
        | false =>
            rw [if_neg Bool.false_ne_true, ih slots hrest hothers, hlater]
            rfl
        | true =>
            rw [if_pos rfl, List.foldl_cons, ih _ hrest hothers, hlater]
            dsimp only
            rw [Dict.get?_set, if_pos rfl]
            rfl
      · rw [beq_false_of_ne hworker]
        dsimp only
        cases recent found with
        | false =>
            rw [if_neg Bool.false_ne_true]
            exact ih slots hrest hothers
        | true =>
            rw [if_pos rfl, List.foldl_cons, ih _ hrest hothers, Dict.get?_set, if_neg hworker]

theorem get?_freeSlots (hrostered : s.Rostered) (config : Config) (now : Time) (worker : WorkerId) :
    (s.freeSlots config now).get? worker =
      if s.asks config now worker then some (s.announced worker) else none := by
  have hids : ∀ entry ∈ s.activeWorkers.entries, entry.2.id = entry.1 := by
    intro entry hmem
    have hget := (Dict.mem_entries_iff ..).mp hmem
    rw [← workerAt_eq hget]
    exact hrostered.worker_id entry.1
  unfold freeSlots asks announced
  rw [Dict.values, get?_enterSlots _ _ s.activeWorkers.nodup_keys hids]
  change (match s.activeWorkers.get? worker with | none => _ | some found => _) = _
  cases hget : s.activeWorkers.get? worker with
  | none => rfl
  | some found =>
      rw [workerAt_eq hget]
      rfl

theorem mirrors_start (hrostered : s.Rostered) (config : Config) (now : Time) :
    Mirrors (s.asks config now) { greedyWorkers := s.freeSlots config now }
      (.blank s.announced) where
  resources _ := rfl
  known worker := by
    rw [Dict.contains, get?_freeSlots hrostered]
    cases s.asks config now worker <;> rfl
  slots worker hasks := by
    rw [Dict.getD, get?_freeSlots hrostered, if_pos hasks]
    rfl

theorem mirrors_empty (slots : WorkerId → Int) : Mirrors (fun _ => false) {} (.blank slots) where
  resources _ := rfl
  known _ := rfl
  slots _ h := by cases h

theorem rankLe_refl (s : Scheduler) (ref : Ref) : s.rankLe ref ref := .inr ⟨rfl, le_rfl⟩

theorem Indexed.ranking (hindex : s.Indexed) :
    s.Ranking (s.sortByRankReverse (s.activeStepsByStatus [.pending, .running])) where
  mem ref := by rw [mem_sortByRankReverse, hindex.mem_activeStepsByStatus, List.mem_pair]
  nodup := (List.perm_insertionSort _ _).nodup_iff.mpr
    (hindex.nodup_activeStepsByStatus (by decide))
  descends := List.pairwise_insertionSort _ _

theorem Ranking.eq_sorted {order : List Ref} (hranking : s.Ranking order) (hindex : s.Indexed)
    (hranks : s.RanksDistinct) :
    s.sortByRankReverse (s.activeStepsByStatus [.pending, .running]) = order := by
  have hsorted : (s.sortByRankReverse (s.activeStepsByStatus [.pending, .running])).Perm order :=
    (List.perm_ext_iff_of_nodup hindex.ranking.nodup hranking.nodup).mpr fun ref =>
      (hindex.ranking.mem ref).trans (hranking.mem ref).symm
  refine hsorted.eq_of_pairwise ?_ hindex.ranking.descends hranking.descends
  intro left right hleft hright hle hge
  have hactive : ∀ ref ∈ order, ref ∈ s.activeSteps := fun ref href =>
    hindex.mem_activeSteps.mpr ((hranking.mem ref).mp href).1
  exact hranks.antisymm (hactive left ((hsorted.mem_iff).mp hleft)) (hactive right hright) hge hle

/-! ## The steps of the worker -/

def Agrees (s : Scheduler) (worker : WorkerId) : Prop :=
  ∀ ref, ref ∈ (s.workerAt worker).steps ↔ s.Filed ref ∧ worker ∈ (s.stepAt ref).workers

theorem Sound.agrees (hsound : s.Sound) {worker : WorkerId}
    (hfiled : ∀ ref ∈ (s.workerAt worker).steps.elems, s.Filed ref) : s.Agrees worker := by
  intro ref
  constructor
  · intro hlisted
    exact ⟨hfiled ref hlisted, hsound.rostered.knows hlisted⟩
  · intro h
    exact (hsound.rostered.lists h.1 h.2).2

theorem Sound.mem_getSteps_iff (hsound : s.Sound) {worker : WorkerId} (hagrees : s.Agrees worker)
    {statuses : List Status} {ref : Ref} :
    ref ∈ (s.workerAt worker).getSteps s statuses ↔
      s.Filed ref ∧ (s.stepAt ref).status ∈ statuses ∧ worker ∈ (s.stepAt ref).workers := by
  have hid := hsound.rostered.worker_id worker
  unfold Worker.getSteps
  dsimp only
  split
  · rw [mem_selfSteps, hagrees]
    tauto
  · rw [hsound.index.mem_stateSteps, hid]
    tauto

/-- Where the two listings agree, every step that is listed is in the table. -/
theorem Sound.filed_of_agrees (hsound : s.Sound) {worker : WorkerId} (hagrees : s.Agrees worker)
    {statuses : List Status} {ref : Ref}
    (hmem : ref ∈ (s.workerAt worker).getSteps s statuses) : s.Filed ref :=
  ((hsound.mem_getSteps_iff hagrees).mp hmem).1

/-! ## What the loop chooses -/

/-- The step is the best one that is available. -/
def IsBest (s : Scheduler) (args : GetWorkArgs) (config : Config) (now : Time) (order : List Ref) :
    Option Ref → Prop
  | none => ∀ ref, ¬s.Available args config now order ref
  | some best => s.Available args config now order best ∧
      ∀ other, s.Available args config now order other → s.rankLe other best

section Choice

variable {config : Config} {now : Time} {order : List Ref}

/-- Where the worker's own steps need resources, or it is an assistant. -/
theorem isBest_of_ledgers (hsound : s.Sound) (hranks : s.RanksDistinct)
    (hranking : s.Ranking order) (hpaused : s.paused = false)
    (htrivial : (s.workerAt args.worker).isTrivialWorker s = false) :
    s.IsBest args config now order (s.selectWork args config now none).bestStep := by
  have hchoose : (s.selectWork args config now none).bestStep =
      choose (s.pass args (s.asks config now) s.inUse) (s.Takes args s.inUse) (.blank s.announced)
        order := by
    unfold selectWork relevantSteps
    dsimp only
    rw [hpaused, htrivial, if_neg Bool.false_ne_true, if_neg Bool.false_ne_true]
    dsimp only
    rw [hranking.eq_sorted hsound.index hranks]
    exact bestStep_eq_choose (mirrors_start hsound.rostered config now) (getD_usedResources s) rfl
      order
  rw [hchoose]
  cases hchoice : choose (s.pass args (s.asks config now) s.inUse) (s.Takes args s.inUse)
      (.blank s.announced) order with
  | none =>
      intro ref havailable
      exact (choose_eq_none hranking.nodup).mp hchoice ref havailable.1 havailable.2
  | some best =>
      obtain ⟨hbest, htakes, hfirst⟩ := choose_first hranking.nodup hranking.descends hchoice
      refine ⟨⟨hbest, htakes⟩, fun other hother => ?_⟩
      rcases hfirst other hother.1 hother.2 with rfl | hrank
      · exact s.rankLe_refl other
      · exact hrank

theorem fits_empty (total : String → Int) : s.Fits ∅ total := by
  intro entry hmem
  cases hmem

section Trivial

variable (hsound : s.Sound) (hagrees : s.Agrees args.worker)
  (hassistant : args.assistant = true → (s.workerAt args.worker).assistant = true)
  (htrivial : (s.workerAt args.worker).isTrivialWorker s = true)

include hassistant htrivial

theorem mayRun_of_trivial (ref : Ref) :
    s.mayRun args ref = true ↔ args.worker ∈ (s.stepAt ref).workers := by
  have hplain : args.assistant = false := by
    by_contra h
    have hno := (Bool.and_eq_true_iff.mp htrivial).1
    rw [hassistant (Bool.eq_true_of_not_eq_false h)] at hno
    cases hno
  rw [mayRun, hplain, Bool.false_and, Bool.false_or, decide_eq_true_eq]

include hsound hagrees

/-- A ready step of the worker needs nothing, and so fits every account. -/
theorem takes_of_trivial (used : String → Int) (ledger : Ledger) {ref : Ref}
    (hfiled : s.Filed ref) : s.Takes args used ledger ref ↔
      s.Ready ref ∧ args.worker ∈ (s.stepAt ref).workers := by
  constructor
  · intro h
    exact ⟨h.1, (mayRun_of_trivial hassistant htrivial ref).mp h.2.1.1⟩
  · rintro ⟨hready, hworker⟩
    have hpending : ref ∈ (s.workerAt args.worker).getSteps s [.pending] :=
      (hsound.mem_getSteps_iff hagrees).mpr ⟨hfiled, by simp [hready.1], hworker⟩
    have hfree := (Bool.and_eq_true_iff.mp htrivial).2
    have hneeds : (s.stepAt ref).resources = ∅ :=
      Dict.eq_empty_of_isEmpty (List.all_eq_true.mp hfree ref hpending)
    unfold Takes CanTake
    rw [hneeds]
    exact ⟨hready, ⟨(mayRun_of_trivial hassistant htrivial ref).mpr hworker, fits_empty _⟩,
      fits_empty _⟩

theorem available_of_trivial (hranking : s.Ranking order) (ref : Ref) :
    s.Available args config now order ref ↔
      ref ∈ (s.workerAt args.worker).getSteps s [.pending, .running] ∧ s.Ready ref := by
  unfold Available
  rw [hranking.mem, hsound.mem_getSteps_iff hagrees]
  constructor
  · rintro ⟨⟨hfiled, hstatus⟩, h⟩
    obtain ⟨hready, hworker⟩ :=
      (takes_of_trivial hsound hagrees hassistant htrivial _ _ hfiled).mp h
    exact ⟨⟨hfiled, by simp [hready.1], hworker⟩, hready⟩
  · rintro ⟨⟨hfiled, -, hworker⟩, hready⟩
    exact ⟨⟨hfiled, .inl hready.1⟩,
      (takes_of_trivial hsound hagrees hassistant htrivial _ _ hfiled).mpr ⟨hready, hworker⟩⟩

/-- Where they need nothing, the loop looks at no other steps and keeps no accounts. -/
theorem isBest_of_trivial (hranking : s.Ranking order) (hpaused : s.paused = false) :
    s.IsBest args config now order (s.selectWork args config now none).bestStep := by
  set own := s.sortByRankReverse
    ((s.workerAt args.worker).getSteps s [.pending, .running]) with hown
  have hchoose : (s.selectWork args config now none).bestStep =
      choose (s.pass args (fun _ => false) fun _ => 0) (s.Takes args fun _ => 0)
        (.blank s.announced) own := by
    unfold selectWork relevantSteps
    dsimp only
    rw [hpaused, htrivial, if_neg Bool.false_ne_true, if_pos rfl]
    exact bestStep_eq_choose (mirrors_empty _) (fun _ => rfl) rfl own
  have havailable : ∀ ref, s.Available args config now order ref ↔ ref ∈ own ∧ s.Ready ref := by
    intro ref
    rw [hown, mem_sortByRankReverse]
    exact available_of_trivial hsound hagrees hassistant htrivial hranking ref
  have htakes : ∀ ref ∈ own, s.Ready ref → s.Takes args (fun _ => 0)
      (stateAt (s.pass args (fun _ => false) fun _ => 0) (.blank s.announced) own ref) ref := by
    intro ref href hready
    obtain ⟨hfiled, -, hworker⟩ :=
      (hsound.mem_getSteps_iff hagrees).mp ((mem_sortByRankReverse s _ ref).mp href)
    exact (takes_of_trivial hsound hagrees hassistant htrivial _ _ hfiled).mpr ⟨hready, hworker⟩
  have hnodup : own.Nodup := by
    have hrelevant := hsound.index.nodup_relevantSteps args config now
    simp only [relevantSteps, hpaused, htrivial, Bool.false_eq_true, if_false, if_true]
      at hrelevant
    exact (List.perm_insertionSort _ _).nodup_iff.mpr hrelevant
  rw [hchoose]
  cases hchoice : choose (s.pass args (fun _ => false) fun _ => 0) (s.Takes args fun _ => 0)
      (.blank s.announced) own with
  | none =>
      intro ref h
      obtain ⟨href, hready⟩ := (havailable ref).mp h
      exact (choose_eq_none hnodup).mp hchoice ref href (htakes ref href hready)
  | some best =>
      have hdescends : own.Pairwise fun higher lower => s.rankLe lower higher :=
        List.pairwise_insertionSort _ _
      obtain ⟨hmember, hbest, hfirst⟩ := choose_first hnodup hdescends hchoice
      refine ⟨(havailable best).mpr ⟨hmember, hbest.1⟩, fun other hother => ?_⟩
      obtain ⟨href, hready⟩ := (havailable other).mp hother
      rcases hfirst other href (htakes other href hready) with rfl | hrank
      · exact s.rankLe_refl other
      · exact hrank

end Trivial

end Choice

/-! ## The first member of a batch -/

/-- A batch starts with the chosen step. -/
structure Headed (selection : Selection) : Prop where
  idle : selection.bestStep = none →
    selection.batchedSteps = [] ∧ selection.batchedParams = none
  opened : selection.batchedParams ≠ none → selection.batchedSteps ≠ []
  head : selection.batchedSteps ≠ [] → selection.batchedSteps.head? = selection.bestStep

theorem Headed.congr {selection other : Selection} (hheaded : Headed selection)
    (hbest : other.bestStep = selection.bestStep)
    (hsteps : other.batchedSteps = selection.batchedSteps)
    (hparams : other.batchedParams = selection.batchedParams) : Headed other where
  idle := by rw [hbest, hsteps, hparams]; exact hheaded.idle
  opened := by rw [hsteps, hparams]; exact hheaded.opened
  head := by rw [hbest, hsteps]; exact hheaded.head

theorem Headed.considerStep {selection : Selection} (hheaded : Headed selection) (used : Resources)
    (ref : Ref) : Headed (s.considerStep args used selection ref) := by
  unfold Scheduler.considerStep
  cases hbest : selection.bestStep with
  | some best =>
      dsimp only
      unfold extendBatch
      cases hparams : selection.batchedParams with
      | none => exact hheaded
      | some batched =>
          dsimp only
          split
          · have hnonempty := hheaded.opened (by rw [hparams]; exact Option.some_ne_none _)
            refine ⟨fun h => ?_, fun _ => ?_, fun _ => ?_⟩
            · exact absurd (hbest.symm.trans h) (Option.some_ne_none best)
            · exact List.append_ne_nil_of_left_ne_nil hnonempty _
            · exact (List.head?_append_of_ne_nil _ hnonempty).trans (hheaded.head hnonempty)
          · exact hheaded
  | none =>
      obtain ⟨hsteps, hparams⟩ := hheaded.idle hbest
      obtain ⟨hrbest, hrsteps, hrparams⟩ := reserveRunning_keeps s selection ref
      dsimp only
      split
      · split
        · obtain ⟨hchosen, hcases⟩ := chooseStep_cases s args (s.reserveRunning selection ref) ref
          rw [hrsteps, hsteps, hrparams, hparams, or_self, List.nil_append] at hcases
          refine ⟨fun h => ?_, fun h => ?_, fun h => ?_⟩
          · exact absurd (hchosen.symm.trans h) (Option.some_ne_none ref)
          · rcases hcases with ⟨-, hnone⟩ | ⟨-, hsingle⟩
            · exact absurd hnone h
            · rw [hsingle]
              exact List.cons_ne_nil _ _
          · rcases hcases with ⟨hnil, -⟩ | ⟨-, hsingle⟩
            · exact absurd hnil h
            · rw [hsingle, hchosen]
              rfl
        · obtain ⟨hgbest, hgsteps, hgparams⟩ :=
            reserveGreedily_keeps s args (s.reserveRunning selection ref) ref
          exact hheaded.congr (hgbest.trans hrbest) (hgsteps.trans hrsteps)
            (hgparams.trans hrparams)
      · exact hheaded.congr hrbest hrsteps hrparams

theorem headed_selectWork (s : Scheduler) (args : GetWorkArgs) (config : Config) (now : Time) :
    Headed (s.selectWork args config now none) := by
  have hloop : ∀ (refs : List Ref) (used : Resources) (selection : Selection),
      Headed selection → Headed (refs.foldl (s.considerStep args used) selection) := by
    intro refs used
    induction refs with
    | nil => exact fun _ h => h
    | cons ref rest ih => exact fun _ h => ih _ (h.considerStep used ref)
  exact hloop _ _ _ ⟨fun _ => ⟨rfl, rfl⟩, fun h => absurd rfl h, fun h => absurd rfl h⟩

/-- The work starts with the chosen step. -/
theorem Headed.head?_stepIds {selection : Selection} (hheaded : Headed selection) (env : Env)
    {best : Ref} (hbest : selection.bestStep = some best) :
    selection.work env s ≠ .nothing ∧
      (selection.work env s).stepIds.head? = some (s.stepAt best).id := by
  unfold Selection.work
  rw [hbest]
  dsimp only
  split
  · rename_i hsize
    have hnonempty : selection.batchedSteps ≠ [] := List.ne_nil_of_length_pos (by omega)
    refine ⟨by rintro ⟨⟩, ?_⟩
    rw [Work.stepIds, List.head?_map, hheaded.head hnonempty, hbest]
    rfl
  · exact ⟨by rintro ⟨⟩, rfl⟩

end Scheduler

open Scheduler

namespace Env

variable (env : Env)

theorem ranked_sound {s : Scheduler} (hsound : s.Sound) (moment : Moment) (args : GetWorkArgs) :
    (env.ranked s moment args).Sound := by
  obtain ⟨-, hreceives, -, -⟩ := receiveRequest_spec env moment args hsound.stored hsound.retriable
  obtain ⟨-, hprepares⟩ := prepares_ranked env moment args hsound.stored hsound.retriable
  exact (hsound.receives hreceives).prepares hprepares

/-- A worker gets the best step that is available to it. -/
theorem picks_best {s : Scheduler} {moment : Moment} {args : GetWorkArgs} (hsound : s.Sound)
    (henabled : ((env.received s moment args).workerAt args.worker).enabled = true)
    (hlost : (env.received s moment args).lostStep args = none)
    (hpaused : (env.ranked s moment args).paused = false)
    (hagrees : (env.ranked s moment args).Agrees args.worker)
    (hranks : (env.ranked s moment args).RanksDistinct)
    {order : List Ref} (hranking : (env.ranked s moment args).Ranking order) :
    ∃ reply, env.outcome s ⟨moment, .getWork args⟩ = .ok (.work reply) ∧
      (env.ranked s moment args).PicksBest args env.config moment.now order reply.work := by
  obtain ⟨-, -, hnoted⟩ := ranked_noted env moment args hsound.stored hsound.retriable
  have hranked := env.ranked_sound hsound moment args
  have hlooks : env.LooksAtFiledSteps s moment args := fun _ ref href _ =>
    hranked.filed_relevantSteps (hranked.filed_of_agrees hagrees) href
  have hassistant : args.assistant = true →
      ((env.ranked s moment args).workerAt args.worker).assistant = true := by
    intro h
    rw [hnoted.workerAt, noted, if_pos h, workerAt_updateWorkerAt, if_pos rfl]
    rfl
  have hbest : (env.ranked s moment args).IsBest args env.config moment.now order
      ((env.ranked s moment args).selectWork args env.config moment.now none).bestStep := by
    cases htrivial : ((env.ranked s moment args).workerAt args.worker).isTrivialWorker
        (env.ranked s moment args) with
    | false => exact isBest_of_ledgers hranked hranks hranking hpaused htrivial
    | true => exact isBest_of_trivial hranked hagrees hassistant htrivial hranking hpaused
  rcases hsound.after_getWork_counts env moment hlooks henabled with
    ⟨error, hraises, -⟩ | ⟨pending, counted, work, hcounts, houtcome, -, hwork⟩
  · obtain ⟨-, -, hallowed⟩ :=
      hranked.countPending_safe (hranked.countsLiveSteps (hranked.filed_of_agrees hagrees)) moment
    exact absurd (congrArg Prod.fst hraises) (hallowed error)
  · obtain ⟨-, hgreets, -⟩ := countPending_meets moment args.worker (env.ranked s moment args)
    simp only [Program.final, hcounts] at hgreets
    refine ⟨⟨pending, work⟩, houtcome, ?_⟩
    have hheaded := headed_selectWork (env.ranked s moment args) args env.config moment.now
    rw [hlost] at hwork
    generalize (env.ranked s moment args).selectWork args env.config moment.now none = selection
      at hbest hheaded hwork
    cases hchosen : selection.bestStep with
    | none =>
        rw [hchosen] at hbest
        have hnothing : work = .nothing := by rw [hwork, Selection.work, hchosen]
        exact ⟨iff_of_true hnothing hbest, fun h => absurd hnothing h⟩
    | some best =>
        rw [hchosen] at hbest
        obtain ⟨hsome, hhead⟩ := hheaded.head?_stepIds (s := counted) env hchosen
        rw [← hwork] at hsome hhead
        rw [hgreets.stepAt] at hhead
        exact ⟨iff_of_false hsome fun h => h best hbest.1, fun _ => ⟨best, hbest.1, hhead, hbest.2⟩⟩

/-- An enabled worker that lost no step gets the best step that is available to it, if the tables
of workers agree and no two steps rank the same. -/
def HandsOutBest (s : Scheduler) (event : Event) : Prop :=
  match event.request with
  | .getWork args =>
      let t := env.ranked s event.moment args
      ((env.received s event.moment args).workerAt args.worker).enabled = true →
        (env.received s event.moment args).lostStep args = none →
        t.paused = false → t.Agrees args.worker → t.RanksDistinct → ∀ order, t.Ranking order →
        ∃ reply, env.outcome s event = .ok (.work reply) ∧
          t.PicksBest args env.config event.moment.now order reply.work
  | _ => True

/-- In every state that a run leads to in which no removed step was handed out, the best step is
handed out. -/
theorem handsOut_best_along {resources : Resources} {events : List Event}
    (hhands : Along env.after (HandsOutFiledSteps env) (.initial resources) events)
    (event : Event) : env.HandsOutBest (env.run (.initial resources) events) event := by
  have hsound := (env.run_sound hhands).1
  obtain ⟨moment, request⟩ := event
  cases request with
  | getWork args =>
      intro henabled hlost hpaused hagrees hranks order hranking
      exact env.picks_best hsound henabled hlost hpaused hagrees hranks hranking
  | _ => exact trivial

end Env

/-- The first worker has a free slot for a step that needs all there is; the second one has a step
of a lower rank that needs it too. -/
def reservingRun : List Event :=
  [ requestAt 1 (.getWork { worker := firstWorker, currentSteps := some [] }),
    requestAt 2 (.addStep
      { worker := firstWorker, stepId := "a", priority := 2
        resources := some (Dict.set ∅ "r" 1) }),
    requestAt 3 (.addStep
      { worker := secondWorker, stepId := "b", resources := some (Dict.set ∅ "r" 1) }) ]

/-- The second worker has to wait. -/
theorem lower_rank_waits :
    ∃ reply, defaultEnv.outcome (defaultEnv.run (.initial ∅) reservingRun)
        (requestAt 4 (.getWork { worker := secondWorker, currentSteps := some [] })) =
        .ok (.work reply) ∧
      (defaultEnv.ranked (defaultEnv.run (.initial ∅) reservingRun) { now := 4 }
        { worker := secondWorker, currentSteps := some [] }).PicksBest
        { worker := secondWorker, currentSteps := some [] } {} 4 [0, 1] reply.work := by
  have hhands : Along defaultEnv.after (HandsOutFiledSteps defaultEnv) (.initial ∅)
      reservingRun := by
    decide +kernel
  have hranked := defaultEnv.ranked_sound (defaultEnv.run_sound hhands).1 { now := 4 }
    { worker := secondWorker, currentSteps := some [] }
  have horder := hranked.index.ranking
  rw [show Scheduler.sortByRankReverse _ _ = [0, 1] by decide +kernel] at horder
  exact defaultEnv.handsOut_best_along hhands
    (requestAt 4 (.getWork { worker := secondWorker, currentSteps := some [] }))
    (by decide +kernel) (by decide +kernel) (by decide +kernel)
    (hranked.agrees (by decide +kernel)) (by decide +kernel) _ horder

/-- A removed step is scheduled anew, with the highest priority.  Before anybody asks for it the
assistant that outlived the old one gets that, and the new one leaves the index in its place. -/
def misfilingRun : List Event :=
  outlivingRun.take 4 ++
    [ requestAt 603 (schedules secondWorker "b"),
      requestAt 604 (schedules secondWorker "c"),
      requestAt 605 (schedules secondWorker "d"),
      requestAt 606 (.addStep { worker := secondWorker, stepId := "a", priority := 1 }),
      requestAt 607 (.getWork { worker := firstWorker, currentSteps := some [] }) ]

/-- The state in which the steps are ranked when the second worker asks. -/
def misfiled : Scheduler :=
  defaultEnv.ranked (defaultEnv.run (.initial ∅) misfilingRun) { now := 608 }
    { worker := secondWorker, currentSteps := some [] }

/-- The worker does not get the new step, although it is the best one. -/
theorem misfiled_step_passed_over :
    Timely (misfilingRun ++
        [requestAt 608 (.getWork { worker := secondWorker, currentSteps := some [] })]) ∧
      ((defaultEnv.received (defaultEnv.run (.initial ∅) misfilingRun) { now := 608 }
        { worker := secondWorker, currentSteps := some [] }).workerAt secondWorker).enabled = true ∧
      (defaultEnv.received (defaultEnv.run (.initial ∅) misfilingRun) { now := 608 }
        { worker := secondWorker, currentSteps := some [] }).lostStep
          { worker := secondWorker, currentSteps := some [] } = none ∧
      misfiled.paused = false ∧ misfiled.Agrees secondWorker ∧ misfiled.RanksDistinct ∧
      misfiled.Ranking [5, 2, 3, 4] ∧
      ¬∃ reply, defaultEnv.outcome (defaultEnv.run (.initial ∅) misfilingRun)
          (requestAt 608 (.getWork { worker := secondWorker, currentSteps := some [] })) =
          .ok (.work reply) ∧
        misfiled.PicksBest { worker := secondWorker, currentSteps := some [] } {} 608
          [5, 2, 3, 4] reply.work := by
  have hactive : ∀ {ref}, misfiled.Filed ref → ref ∈ misfiled.activeSteps := fun hfiled =>
    (mem_activeSteps ..).mpr ⟨_, hfiled⟩
  refine ⟨by decide +kernel, by decide +kernel, by decide +kernel, by decide +kernel, ?_,
    by decide +kernel, ⟨fun ref => ⟨fun href => ?_, fun href => ?_⟩, by decide, ?_⟩, ?_⟩
  · have hlisted : ∀ ref ∈ (misfiled.workerAt secondWorker).steps.elems,
        misfiled.Filed ref ∧ secondWorker ∈ (misfiled.stepAt ref).workers := by
      decide +kernel
    have hlists : ∀ ref ∈ misfiled.activeSteps, secondWorker ∈ (misfiled.stepAt ref).workers →
        ref ∈ (misfiled.workerAt secondWorker).steps := by
      decide +kernel
    exact fun ref => ⟨hlisted ref, fun h => hlists ref (hactive h.1) h.2⟩
  · have hwait : ∀ ref ∈ [5, 2, 3, 4], misfiled.Filed ref ∧
        ((misfiled.stepAt ref).status = .pending ∨ (misfiled.stepAt ref).status = .running) := by
      decide +kernel
    exact hwait ref href
  · have hwait : ∀ ref ∈ misfiled.activeSteps, (misfiled.stepAt ref).status = .pending ∨
        (misfiled.stepAt ref).status = .running → ref ∈ [5, 2, 3, 4] := by
      decide +kernel
    exact hwait ref (hactive href.1) href.2
  · decide +kernel
  · rintro ⟨reply, houtcome, -, hbest⟩
    have hgiven : defaultEnv.outcome (defaultEnv.run (.initial ∅) misfilingRun)
        (requestAt 608 (.getWork { worker := secondWorker, currentSteps := some [] })) =
        .ok (.work ⟨⟨3, 3, 3, .active, []⟩, .single "b" "" none ∅⟩) := by
      decide +kernel
    obtain rfl := Response.work.inj (Except.ok.inj (houtcome.symm.trans hgiven))
    obtain ⟨best, ⟨hmem, -⟩, hchosen, hall⟩ := hbest fun hnothing => by cases hnothing
    have hnew : misfiled.Available { worker := secondWorker, currentSteps := some [] } {} 608
        [5, 2, 3, 4] 5 := by
      unfold Available
      decide +kernel
    have hlower : ∀ ref ∈ [5, 2, 3, 4], (misfiled.stepAt ref).id = "b" →
        ¬misfiled.rankLe 5 ref := by
      decide +kernel
    exact hlower best hmem (Option.some.inj hchosen).symm (hall 5 hnew)

end Trun
