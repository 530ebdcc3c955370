import Mathlib.Algebra.Order.BigOperators.Group.Finset
import Trun.Scheduler.Decreasing
import Trun.Scheduler.Greedy
import Trun.Scheduler.Removal

/-!
# Resource limits

`get_work` starts a step only where its demands fit on top of what the running steps use.
With no other way to start a run than to be handed a step, or to start a batch where it
passes the same test, no resource is ever used beyond its limit.
-/

namespace Trun

open Program

/-! ## Amounts -/

def Nonneg (amounts : Resources) : Prop := ∀ entry ∈ amounts.entries, 0 ≤ entry.2

instance (amounts : Resources) : Decidable (Nonneg amounts) := by
  unfold Nonneg; infer_instance

theorem nonneg_empty : Nonneg ∅ := by
  intro entry hentry
  cases hentry

theorem nonneg_iff {amounts : Resources} :
    Nonneg amounts ↔ ∀ name amount, amounts.get? name = some amount → 0 ≤ amount := by
  constructor
  · intro hnonneg name amount hget
    exact hnonneg (name, amount) ((amounts.mem_entries_iff name amount).mpr hget)
  · rintro hget ⟨name, amount⟩ hentry
    exact hget name amount ((amounts.mem_entries_iff name amount).mp hentry)

theorem tally_eq_getD (amounts : Resources) (resource : String) :
    tally amounts resource = amounts.getD resource 0 := by
  have hentries : ∀ entries : List (String × Int), (entries.map Prod.fst).Nodup →
      (entries.map fun entry => if entry.1 = resource then entry.2 else 0).sum =
        (entries.lookup resource).getD 0 := by
    intro entries hnodup
    induction entries with
    | nil => rfl
    | cons entry rest ih =>
        obtain ⟨name, amount⟩ := entry
        obtain ⟨hfirst, hrest⟩ := List.nodup_cons.mp hnodup
        have hnew : name ∉ rest.map Prod.fst := hfirst
        rw [List.map_cons, List.sum_cons, ih hrest, List.lookup_cons]
        by_cases hname : resource = name
        · subst hname
          have habsent : rest.lookup resource = none := by
            refine List.lookup_eq_none_iff.mpr fun other hother => ?_
            rw [bne_iff_ne]
            rintro rfl
            exact hnew (List.mem_map_of_mem hother)
          simp [habsent]
        · simp [Ne.symm hname, beq_false_of_ne hname]
  exact hentries amounts.entries amounts.nodup_keys

theorem Nonneg.tally {amounts : Resources} (hnonneg : Nonneg amounts) (resource : String) :
    0 ≤ tally amounts resource := by
  rw [tally_eq_getD, Dict.getD]
  cases hget : amounts.get? resource with
  | none => exact le_rfl
  | some amount => exact nonneg_iff.mp hnonneg resource amount hget

/-- A decrease adds no name. -/
theorem get?_decreaseResources_none (resources amounts : Resources) {name : String}
    (hget : resources.get? name = none) :
    (decreaseResources resources amounts).get? name = none := by
  have hloop : ∀ (entries : List (String × Int)) (current : Resources),
      current.get? name = none → (entries.foldl (fun current entry =>
        if 0 < entry.2 ∧ current.contains entry.1 = true then
          current.modify entry.1 0 fun amount => max 0 (amount - entry.2)
        else current) current).get? name = none := by
    intro entries
    induction entries with
    | nil => exact fun _ h => h
    | cons entry rest ih =>
        intro current hcurrent
        refine ih _ ?_
        rw [get?_decreaseEntry, hcurrent]
        split <;> rfl
  exact hloop amounts.entries resources hget

theorem Nonneg.decreaseResources {resources : Resources} (hnonneg : Nonneg resources)
    (amounts : Resources) : Nonneg (decreaseResources resources amounts) := by
  rw [nonneg_iff] at hnonneg ⊢
  intro name amount hget
  cases hold : resources.get? name with
  | none =>
      rw [get?_decreaseResources_none resources amounts hold] at hget
      cases hget
  | some before =>
      obtain ⟨left, hleft, hpositive, -⟩ :=
        get?_decreaseResources resources amounts hold (hnonneg name before hold)
      obtain rfl := Option.some.inj (hleft.symm.trans hget)
      exact hpositive

theorem tally_decreaseResources_le {resources : Resources} (hnonneg : Nonneg resources)
    (amounts : Resources) (resource : String) :
    tally (decreaseResources resources amounts) resource ≤ tally resources resource := by
  rw [tally_eq_getD, tally_eq_getD, Dict.getD, Dict.getD]
  cases hold : resources.get? resource with
  | none => rw [get?_decreaseResources_none resources amounts hold]
  | some before =>
      obtain ⟨left, hleft, -, hle⟩ := get?_decreaseResources resources amounts hold
        (nonneg_iff.mp hnonneg resource before hold)
      rw [hleft]
      exact hle

/-! ## One step -/

namespace Step

/-- Nothing that the step declares or runs with is negative, and a running step has amounts
to run with. -/
structure Booked (step : Step) : Prop where
  declared : Nonneg step.resources
  amounts : ∀ amounts ∈ step.resourcesRunning, Nonneg amounts
  runs : step.status = .running → step.resourcesRunning.isSome = true

theorem Booked.nonneg {step : Step} (hbooked : step.Booked) : Nonneg step.charged := by
  unfold charged
  cases hrunning : step.resourcesRunning with
  | none => exact hbooked.declared
  | some amounts => exact hbooked.amounts amounts hrunning

/-- A step that is not charged more than before. -/
structure Shrinks (before after : Step) : Prop where
  booked : before.Booked → after.Booked
  running : after.status = .running → before.status = .running
  charged : before.Booked → after.status = .running →
    ∀ resource, tally after.charged resource ≤ tally before.charged resource

variable {a b c : Step}

theorem Shrinks.refl (step : Step) : step.Shrinks step :=
  ⟨fun h => h, fun h => h, fun _ _ _ => le_rfl⟩

theorem Shrinks.trans (hab : a.Shrinks b) (hbc : b.Shrinks c) : a.Shrinks c where
  booked := fun hbooked => hbc.booked (hab.booked hbooked)
  running := fun hrunning => hab.running (hbc.running hrunning)
  charged := fun hbooked hrunning resource =>
    (hbc.charged (hab.booked hbooked) hrunning resource).trans
      (hab.charged hbooked (hbc.running hrunning) resource)

/-- The amounts are the same, and the step does not start to run. -/
theorem shrinks_of_same (hresources : b.resources = a.resources)
    (hamounts : b.resourcesRunning = a.resourcesRunning)
    (hstatus : b.status = .running → a.status = .running) : a.Shrinks b where
  booked := fun hbooked => by
    refine ⟨hresources ▸ hbooked.declared, hamounts ▸ hbooked.amounts, fun hrunning => ?_⟩
    rw [hamounts]
    exact hbooked.runs (hstatus hrunning)
  running := hstatus
  charged := fun _ _ resource => by
    unfold Step.charged
    rw [hresources, hamounts]

theorem shrinks_of_plan (hplan : b.plan = a.plan)
    (hstatus : b.status = .running → a.status = .running) : a.Shrinks b :=
  shrinks_of_same (congrArg Step.resources hplan :) (congrArg Step.resourcesRunning hplan :) hstatus

/-- `set_status` starts no run unless it is told to. -/
theorem settle_running {step : Step} {config : Option Config} {now : Time} {newStatus : Status}
    (hrunning : (step.settle config now newStatus).status = .running) :
    newStatus = .running ∨ step.status = .running := by
  cases hignores : step.ignores newStatus with
  | true =>
      rw [settle_of_ignores _ _ _ _ hignores] at hrunning
      exact .inr hrunning
  | false =>
      rcases settle_status_cases step config now newStatus hignores with h | ⟨-, h⟩
      · exact .inl (h.symm.trans hrunning)
      · rw [h] at hrunning
        cases hrunning

theorem shrinks_settle (step : Step) (config : Option Config) (now : Time) {newStatus : Status}
    (hstatus : newStatus ≠ .running) : step.Shrinks (step.settle config now newStatus) :=
  shrinks_of_plan (step.settle_plan config now newStatus) fun hrunning =>
    (settle_running hrunning).resolve_left hstatus

theorem shrinks_decrease (step : Step) (amounts : Resources) :
    step.Shrinks (step.decrease amounts) := by
  unfold decrease
  cases hamounts : step.resourcesRunning with
  | none => exact .refl step
  | some running =>
      refine ⟨fun hbooked => ?_, fun h => h, fun hbooked _ resource => ?_⟩
      · have hleft := (hbooked.amounts running hamounts).decreaseResources amounts
        refine ⟨?_, fun left hleftMem => ?_, fun _ => rfl⟩
        · dsimp only
          split
          · exact hleft
          · exact hbooked.declared
        · obtain rfl := Option.mem_some.mp hleftMem
          exact hleft
      · unfold charged
        rw [hamounts]
        exact tally_decreaseResources_le (hbooked.amounts running hamounts) amounts resource

theorem shrinks_iterate (step : Step) (amounts : Resources) (count : ℕ) :
    step.Shrinks ((fun step => step.decrease amounts)^[count] step) := by
  induction count generalizing step with
  | zero => exact .refl step
  | succ count ih => exact (shrinks_decrease step amounts).trans (ih _)

theorem Booked.handed {step : Step} (hbooked : step.Booked) (worker : WorkerId) (now : Time) :
    (step.handed worker now).Booked := by
  have hresources : (step.handed worker now).resources = step.resources :=
    step.withStatus_resources now .running
  refine ⟨hresources ▸ hbooked.declared, fun amounts hamounts => ?_, fun _ => rfl⟩
  obtain rfl := Option.mem_some.mp hamounts
  exact hbooked.declared

theorem shrinks_reserved (step : Step) (worker : WorkerId) (now : Time) (batchId : BatchId) :
    step.Shrinks (step.reserved worker now batchId) := by
  have hresources : (step.reserved worker now batchId).resources = step.resources :=
    step.withStatus_resources now .batchRunning
  have hstopped : (step.reserved worker now batchId).status ≠ .running := by
    rw [step.reserved_status worker now batchId]
    decide
  refine ⟨fun hbooked => ⟨hresources ▸ hbooked.declared, fun amounts hamounts => ?_,
    fun h => absurd h hstopped⟩, fun h => absurd h hstopped, fun _ h => absurd h hstopped⟩
  obtain rfl := Option.mem_some.mp hamounts
  exact hbooked.declared

end Step

namespace Scheduler

variable {s t : Scheduler} {env : Env} {config : Config} {now : Time} {moment : Moment}
variable {ref : Ref} {limits : String → Int}

/-! ## What is in use -/

def runningSteps (s : Scheduler) : Finset Ref := (s.activeStepsByStatus [.running]).toFinset

theorem Indexed.mem_runningSteps (hindex : s.Indexed) :
    ref ∈ s.runningSteps ↔ s.Filed ref ∧ (s.stepAt ref).status = .running := by
  rw [runningSteps, List.mem_toFinset, hindex.mem_activeStepsByStatus, List.mem_singleton]

theorem Indexed.inUse_eq (hindex : s.Indexed) (resource : String) :
    s.inUse resource = ∑ ref ∈ s.runningSteps, tally (s.stepAt ref).charged resource :=
  (List.sum_toFinset _ (hindex.nodup_activeStepsByStatus (List.nodup_singleton _))).symm

/-- Every step of the table is booked. -/
def Booked (s : Scheduler) : Prop := ∀ ref, s.Filed ref → (s.stepAt ref).Booked

/-- A step of the table is charged no more than before, or it is new and does not run. -/
def Shrinks (s t : Scheduler) (ref : Ref) : Prop :=
  (s.Filed ref ∧ (s.stepAt ref).Shrinks (t.stepAt ref)) ∨
    ((t.stepAt ref).Booked ∧ (t.stepAt ref).status ≠ .running)

theorem Shrinks.booked (hshrinks : Shrinks s t ref) (hbooked : s.Booked) :
    (t.stepAt ref).Booked := by
  rcases hshrinks with ⟨hfiled, hshrinks⟩ | ⟨hnew, -⟩
  · exact hshrinks.booked (hbooked ref hfiled)
  · exact hnew

theorem Shrinks.charged (hs : s.Indexed) (hshrinks : Shrinks s t ref) (hbooked : s.Booked)
    (hrunning : (t.stepAt ref).status = .running) (resource : String) :
    ref ∈ s.runningSteps ∧
      tally (t.stepAt ref).charged resource ≤ tally (s.stepAt ref).charged resource := by
  rcases hshrinks with ⟨hfiled, hshrinks⟩ | ⟨-, hstopped⟩
  · exact ⟨hs.mem_runningSteps.mpr ⟨hfiled, hshrinks.running hrunning⟩,
      hshrinks.charged (hbooked ref hfiled) hrunning resource⟩
  · exact absurd hrunning hstopped

/-- All amounts are booked, and what is in use stays within the limits. -/
structure Within (limits : String → Int) (s : Scheduler) : Prop where
  booked : s.Booked
  inUse : ∀ resource, s.inUse resource ≤ limits resource

section Sums

variable (hs : s.Indexed) (ht : t.Indexed) (hbooked : s.Booked)

include hs ht hbooked

/-- What the steps are charged that are not charged more than before. -/
theorem sum_charged_le {refs : Finset Ref} (hrefs : refs ⊆ t.runningSteps)
    (hshrinks : ∀ ref ∈ refs, t.Filed ref → Shrinks s t ref) (resource : String) :
    ∑ ref ∈ refs, tally (t.stepAt ref).charged resource ≤ s.inUse resource := by
  have hcharged : ∀ ref ∈ refs, ref ∈ s.runningSteps ∧
      tally (t.stepAt ref).charged resource ≤ tally (s.stepAt ref).charged resource := by
    intro ref href
    obtain ⟨hfiled, hrunning⟩ := ht.mem_runningSteps.mp (hrefs href)
    exact (hshrinks ref href hfiled).charged hs hbooked hrunning resource
  rw [hs.inUse_eq]
  calc ∑ ref ∈ refs, tally (t.stepAt ref).charged resource
      ≤ ∑ ref ∈ refs, tally (s.stepAt ref).charged resource :=
        Finset.sum_le_sum fun ref href => (hcharged ref href).2
    _ ≤ ∑ ref ∈ s.runningSteps, tally (s.stepAt ref).charged resource := by
        refine Finset.sum_le_sum_of_subset_of_nonneg (fun ref href => (hcharged ref href).1)
          fun ref href _ => ?_
        exact (hbooked ref (hs.mem_runningSteps.mp href).1).nonneg.tally resource

theorem inUse_le (hshrinks : ∀ ref, t.Filed ref → Shrinks s t ref) (resource : String) :
    t.inUse resource ≤ s.inUse resource := by
  rw [ht.inUse_eq]
  exact sum_charged_le hs ht hbooked subset_rfl (fun ref _ => hshrinks ref) resource

/-- At most one step is charged more than before. -/
theorem inUse_le_add {start : Ref}
    (hshrinks : ∀ ref, ref ≠ start → t.Filed ref → Shrinks s t ref) (resource : String)
    (hstart : 0 ≤ tally (t.stepAt start).charged resource) :
    t.inUse resource ≤ tally (t.stepAt start).charged resource + s.inUse resource := by
  have hothers := sum_charged_le hs ht hbooked (Finset.erase_subset start t.runningSteps)
    (fun ref href => hshrinks ref (Finset.ne_of_mem_erase href)) resource
  rw [ht.inUse_eq]
  by_cases hmem : start ∈ t.runningSteps
  · rw [← Finset.add_sum_erase _ _ hmem]
    exact Int.add_le_add_left hothers _
  · rw [Finset.erase_eq_of_notMem hmem] at hothers
    exact hothers.trans (Int.le_add_of_nonneg_left hstart)

end Sums

theorem Within.shrinks (hwithin : s.Within limits) (hs : s.Indexed) (ht : t.Indexed)
    (hshrinks : ∀ ref, t.Filed ref → Shrinks s t ref) : t.Within limits where
  booked := fun ref hfiled => (hshrinks ref hfiled).booked hwithin.booked
  inUse := fun resource =>
    (inUse_le hs ht hwithin.booked hshrinks resource).trans (hwithin.inUse resource)

/-- A step that starts, whose amounts fit on top of what is in use. -/
theorem Within.starts (hwithin : s.Within limits) (hs : s.Indexed) (ht : t.Indexed) {start : Ref}
    (hlimits : ∀ resource, s.limit resource = limits resource)
    (hshrinks : ∀ ref, ref ≠ start → t.Filed ref → Shrinks s t ref)
    (hbooked : (t.stepAt start).Booked)
    (hfits : s.Fits (t.stepAt start).charged s.inUse) : t.Within limits where
  booked := by
    intro ref hfiled
    by_cases href : ref = start
    · exact href ▸ hbooked
    · exact (hshrinks ref href hfiled).booked hwithin.booked
  inUse := by
    intro resource
    have hadd := inUse_le_add hs ht hwithin.booked hshrinks resource
      (hbooked.nonneg.tally resource)
    cases hget : (t.stepAt start).charged.get? resource with
    | none =>
        rw [tally_eq_getD, Dict.getD, hget, Option.getD_none, zero_add] at hadd
        exact hadd.trans (hwithin.inUse resource)
    | some amount =>
        rw [tally_eq_getD, Dict.getD, hget, Option.getD_some] at hadd
        have hfit := hfits (resource, amount)
          ((Dict.mem_entries_iff _ resource amount).mpr hget)
        rw [← hlimits]
        exact hadd.trans hfit

/-! ## Requests that start nothing -/

/-- No step of the table is charged more than before. -/
def AllShrink (s t : Scheduler) : Prop := ∀ ref, t.Filed ref → Shrinks s t ref

theorem allShrink_of_object (hfiled : ∀ ref, t.Filed ref → s.Filed ref)
    (hobject : ∀ ref, (s.stepAt ref).Shrinks (t.stepAt ref)) : AllShrink s t :=
  fun ref hleft => .inl ⟨hfiled ref hleft, hobject ref⟩

theorem Greets.allShrink (hgreets : Greets s t) : AllShrink s t :=
  allShrink_of_object (fun ref => (hgreets.filed ref).mp) fun ref => by
    rw [hgreets.stepAt]
    exact .refl _

theorem Describes.allShrink (hdescribes : Describes s t) : AllShrink s t := by
  have hcore := hdescribes.core
  refine allShrink_of_object (fun ref hleft => ?_) fun ref => ?_
  · have hid : (t.stepAt ref).id = (s.stepAt ref).id := (congrArg Step.id (hcore ref) :)
    unfold Filed at hleft ⊢
    rwa [hdescribes.same.getStep, hid] at hleft
  · have hstatus : (t.stepAt ref).status = (s.stepAt ref).status :=
      (congrArg Step.status (hcore ref) :)
    exact Step.shrinks_of_same (congrArg Step.resources (hcore ref) :)
      (congrArg Step.resourcesRunning (hcore ref) :) fun hrunning => hstatus ▸ hrunning

theorem Prepares.allShrink {args : GetWorkArgs} (hprepares : Prepares now args s t) :
    AllShrink s t := by
  refine allShrink_of_object (fun ref => (hprepares.filed ref).mp) fun ref => ?_
  rw [hprepares.object]
  split
  · refine Step.shrinks_of_plan (Step.withStatus_plan ..) fun hrunning => ?_
    rw [Step.withStatus_status] at hrunning
    cases hrunning
  · exact .refl _

theorem Prunes.allShrink (hprunes : Prunes config now s t) : AllShrink s t := by
  refine allShrink_of_object (fun ref => hprunes.filed) fun ref => ?_
  have hswept := hprunes.object ref
  have hkept : (s.stepAt ref).Shrinks ((s.pruneWorkers config now).stepAt ref) := by
    rw [hprunes.inactivates.object]
    split
    · exact Step.shrinks_of_same rfl rfl fun h => h
    · exact .refl _
  refine hkept.trans (Step.shrinks_of_plan hswept.plan fun hrunning => ?_)
  exact (hswept.running (by rw [hrunning]; rfl)).status.symm.trans hrunning

theorem Receives.allShrink (hreceives : Receives env moment s t) : AllShrink s t := by
  cases hprune : env.config.pruneOnGetWork with
  | true =>
      obtain ⟨pruned, hprunes, hgreets⟩ := hreceives.prunes hprune
      intro ref hleft
      have hshrinks := hprunes.allShrink ref ((hgreets.filed ref).mp hleft)
      unfold Shrinks at hshrinks ⊢
      rwa [hgreets.stepAt]
  | false => exact (hreceives.greets hprune).allShrink

theorem Settles.object_shrinks {newStatus : Status} (hstatus : newStatus ≠ .running)
    (hsettles : Settles config now ref newStatus s t) (other : Ref) :
    (s.stepAt other).Shrinks (t.stepAt other) := by
  rw [hsettles.object]
  unfold settled
  split_ifs with hother
  · rw [hother]
    exact Step.shrinks_settle _ _ _ hstatus
  · exact Step.shrinks_of_plan (Step.settle_plan _ _ _ _)
      (Step.shrinks_settle _ _ _ hstatus).running
  · exact .refl _

theorem ReEnables.object_shrinks (hreEnables : ReEnables config now ref s t) (other : Ref) :
    (s.stepAt other).Shrinks (t.stepAt other) := by
  rw [hreEnables.object]
  split
  · rename_i hother
    rw [hother]
    have henabled : (s.stepAt ref).Shrinks (s.stepAt ref).reEnable :=
      Step.shrinks_of_same rfl rfl fun h => h
    have hsettled := Step.shrinks_settle (s.stepAt ref).reEnable (some config) now
      (by decide : Status.failed ≠ .running)
    exact (henabled.trans hsettled).trans (Step.shrinks_of_same rfl rfl fun h => h)
  · exact .refl _

theorem allShrink_decrease (id : StepId) (amounts : Resources) :
    AllShrink s ((decreaseRunningStepResources id amounts).final s) := by
  have hrests := (decreaseRunningStepResources_rests id amounts s trivial).2.1
  refine allShrink_of_object (fun ref => (hrests.filed ref).mp) fun ref => ?_
  rw [stepAt_decreaseRunningStepResources]
  exact Step.shrinks_iterate _ _ _

/-- Of the other requests only those of workers start runs. -/
theorem Handles.allShrink {event : Event} {outcome : Except Raised Response} (hsound : s.Sound)
    (hhandles : Handles env s event outcome t) (husers : event.request.isWorkers = false)
    (hload : event.request ≠ .load) : AllShrink s t := by
  have hback := (hhandles.continues hsound.index husers hload).filed
  cases hhandles with
  | serves hserves =>
      cases hserves with
      | adds | works | prunes => cases husers
      | rests hquiet =>
          obtain ⟨moment, request⟩ := event
          cases request <;> cases husers <;> cases hquiet
  | marks _ hsettles | forgives _ _ hsettles =>
      exact allShrink_of_object hback (hsettles.object_shrinks (by decide))
  | reEnables _ _ hreEnables => exact allShrink_of_object hback hreEnables.object_shrinks
  | idle | dumps => exact allShrink_of_object (fun _ h => h) fun _ => .refl _
  | disables =>
      refine allShrink_of_object hback fun ref => ?_
      rw [stepAt_disableWorker hsound.index]
      split
      · exact Step.shrinks_of_same rfl rfl fun h => h
      · exact .refl _
  | loads => exact absurd rfl hload

theorem allShrink_quiet {request : Request} (hquiet : request.isQuiet = true) :
    AllShrink s (env.after s ⟨moment, request⟩) := by
  have hsame : ∀ {u : Scheduler}, u.steps = s.steps → u.heap = s.heap → AllShrink s u := by
    intro u hsteps hheap
    have hstep : ∀ ref, u.stepAt ref = s.stepAt ref := fun ref => by
      simp only [Scheduler.stepAt, hheap]
    refine allShrink_of_object (fun ref hleft => ?_) fun ref => by rw [hstep]; exact .refl _
    unfold Filed Scheduler.getStep at hleft ⊢
    rwa [hsteps, hstep] at hleft
  cases request with
  | countPending worker =>
      obtain ⟨-, hgreets, -⟩ := reply_meets Response.pending (countPending_meets moment worker s)
      exact Greets.allShrink hgreets
  | ping worker => exact (greets_updateWorker s moment.now worker false).allShrink
  | addWorker worker info => exact (greets_addWorker s moment.now worker info).allShrink
  | decreaseRunningStepResources id amounts =>
      rcases hrun : (decreaseRunningStepResources id amounts).exec s with ⟨outcome, t⟩
      have hafter : env.after s ⟨moment, .decreaseRunningStepResources id amounts⟩ = t :=
        congrArg Prod.snd (exec_reply (fun _ => Response.nothing) hrun)
      have hshrinks := @allShrink_decrease s id amounts
      rw [final, hrun] at hshrinks
      rwa [hafter]
  | setStepStatusMessage id message =>
      have hdescribes : Describes s (s.setStepStatusMessage id message) :=
        describes_reportToBatch s id (fun _ => rfl) fun _ => rfl
      exact hdescribes.allShrink
  | setStepProgressPercentage id percentage =>
      have hdescribes : Describes s (s.setStepProgressPercentage id percentage) :=
        describes_reportToBatch s id (fun _ => rfl) fun _ => rfl
      exact hdescribes.allShrink
  | updateResource resource amount =>
      have hshrinks : AllShrink s (s.updateResource resource amount) := by
        unfold updateResource
        split
        · exact hsame rfl rfl
        · exact hsame rfl rfl
      exact hshrinks
  | addStepBatcher | updateResources | pause | unpause => exact hsame rfl rfl
  | addStep | getWork | prune | markAsDone | forgiveFailures | reEnableStep | disableWorker
  | dump | load => cases hquiet

/-! ## Requests of workers -/

section Adding

variable {args : AddStepArgs} {enabled : Bool}

/-- The amounts that a step runs with once the report has been received: a claim on behalf of
a batch takes over those of its first member. -/
def runsWith (s : Scheduler) (args : AddStepArgs) (ref : Ref) : Option Resources :=
  if (s.stepAt ref).claimedBy args then
    ((s.joinStep args ref).claimResources args).getD none <|> (s.stepAt ref).resourcesRunning
  else (s.stepAt ref).resourcesRunning

/-- A step that is reported to run does so already, or its amounts fit on top of what is
in use. -/
def FindsRoom (s : Scheduler) (args : AddStepArgs) : Prop :=
  args.status = .running → ∀ ref ∈ s.getStep args.stepId,
    (s.stepAt ref).status = .running ∨
      ∃ amounts ∈ s.runsWith args ref, s.hasResources amounts s.usedResources = true

instance (s : Scheduler) (args : AddStepArgs) : Decidable (s.FindsRoom args) := by
  unfold FindsRoom; infer_instance

theorem resourcesRunning_joinStep (s : Scheduler) (args : AddStepArgs) (ref other : Ref) :
    ((s.joinStep args ref).stepAt other).resourcesRunning = (s.stepAt other).resourcesRunning := by
  have hjoin : ∀ step : Step,
      ((step.fillPlaceholder args).joinBatch args).resourcesRunning = step.resourcesRunning :=
    fun _ => rfl
  rw [joinStep, stepAt_updateStep]
  split
  · rename_i hother
    rw [hother]
    exact hjoin _
  · rfl

theorem openedStep_resourcesRunning (s : Scheduler) (moment : Moment) (args : AddStepArgs)
    (ref : Ref) :
    (s.openedStep moment args ref).resourcesRunning = s.runsWith args ref := by
  have hclaimed : ((s.joinStep args ref).stepAt ref).claimedBy args ↔
      (s.stepAt ref).claimedBy args := by
    unfold Step.claimedBy
    rw [workerRunning_joinStep]
  have hkept := s.resourcesRunning_joinStep args ref ref
  unfold openedStep Step.described claimStep runsWith
  simp only [hclaimed]
  split
  · simp only [Step.claim, hkept]
  · exact hkept

theorem Accepts.target_parts (haccepts : Accepts config moment args ref enabled s t) :
    (t.stepAt ref).resources = args.declared ∧
      (t.stepAt ref).resourcesRunning = s.runsWith args ref ∧
      (t.stepAt ref).status =
        ((s.openedStep moment args ref).report config moment args).status := by
  refine ⟨(congrArg Step.resources haccepts.target :), ?_,
    (congrArg Step.status haccepts.target :)⟩
  have hamounts : (t.stepAt ref).resourcesRunning =
      ((s.openedStep moment args ref).report config moment args).resourcesRunning :=
    (congrArg Step.resourcesRunning haccepts.target :)
  rw [hamounts, ← openedStep_resourcesRunning s moment]
  exact (congrArg Step.resourcesRunning (Step.report_plan ..) :)

/-- A batch runs with the amounts of one of its members. -/
theorem Booked.batchResources (hbooked : s.Booked) (hstored : s.Stored) {batchId : BatchId}
    {amounts : Resources}
    (hamounts : (s.joinStep args ref).batchResources batchId = some amounts) : Nonneg amounts := by
  obtain ⟨first, hfirst, hrunning⟩ := Option.bind_eq_some_iff.mp hamounts
  obtain ⟨hfiled, -⟩ := (hstored.joinStep args ref).index.mem_batchRunningSteps.mp
    (List.mem_of_mem_head? hfirst)
  rw [resourcesRunning_joinStep] at hrunning
  have hold : s.Filed first := (filed_updateStep rfl).mp hfiled
  exact (hbooked first hold).amounts amounts hrunning

theorem Booked.runsWith (hbooked : s.Booked) (hstored : s.Stored) (hfiled : s.Filed ref) :
    ∀ amounts ∈ s.runsWith args ref, Nonneg amounts := by
  intro amounts hamounts
  have hown := (hbooked ref hfiled).amounts amounts
  unfold Scheduler.runsWith claimResources at hamounts
  split at hamounts
  · cases hid : args.batchId with
    | none => exact hown (by simpa [hid] using hamounts)
    | some batchId =>
        by_cases hempty : batchId = ""
        · exact hown (by simpa [hid, hempty] using hamounts)
        · cases hbatch : (s.joinStep args ref).batchResources batchId with
          | none => exact hown (by simpa [hid, hempty, hbatch] using hamounts)
          | some copied =>
              have hcopied : copied = amounts := by simpa [hid, hempty, hbatch] using hamounts
              exact hbooked.batchResources hstored (hcopied ▸ hbatch)
  · exact hown hamounts

/-- Apart from the step itself no step is charged more. -/
theorem Accepts.others_shrink (hstored : s.Stored)
    (haccepts : Accepts config moment args ref enabled s t) {other : Ref} (hne : other ≠ ref)
    (hleft : t.Filed other) : Shrinks s t other := by
  rcases haccepts.fresh hleft with hrow | ⟨-, -, -, -, hcore, -⟩
  · have hfiled := hstored.index.filed hrow
    refine .inl ⟨hfiled, ?_⟩
    have hother := haccepts.other other (hstored.filed_lt hfiled) hne
    split at hother
    · rename_i hpasses
      have hstatus : (t.stepAt other).status =
          ((s.stepAt other).settle (some config) moment.now args.newStatus).status :=
        (congrArg Step.status hother :)
      have hplan := (s.stepAt other).settle_plan (some config) moment.now args.newStatus
      refine Step.shrinks_of_same
        ((congrArg Step.resources hother :).trans (congrArg Step.resources hplan :))
        ((congrArg Step.resourcesRunning hother :).trans
          (congrArg Step.resourcesRunning hplan :)) fun hrunning => ?_
      refine (Step.settle_running (hstatus.symm.trans hrunning)).resolve_left fun hnew => ?_
      have hreleases := (Bool.and_eq_true_iff.mp hpasses.1).2
      rw [hnew] at hreleases
      simp [Step.releasesBatch] at hreleases
    · have hstatus : (t.stepAt other).status = (s.stepAt other).status :=
        (congrArg Step.status hother :)
      exact Step.shrinks_of_same (congrArg Step.resources hother :)
        (congrArg Step.resourcesRunning hother :) fun hrunning => hstatus ▸ hrunning
  · have hresources : (t.stepAt other).resources = ∅ := (congrArg Step.resources hcore :)
    have hamounts : (t.stepAt other).resourcesRunning = none :=
      (congrArg Step.resourcesRunning hcore :)
    have hstatus : (t.stepAt other).status = .unknown := (congrArg Step.status hcore :)
    refine .inr ⟨⟨hresources ▸ nonneg_empty, fun amounts h => ?_, fun h => ?_⟩, ?_⟩
    · rw [hamounts] at h
      cases h
    · rw [hstatus] at h
      cases h
    · rw [hstatus]
      decide

/-- The step itself, as the request leaves it. -/
theorem Accepts.target_cases (hsound : s.Sound) (hbooked : s.Booked) (hfiled : s.Filed ref)
    (hget : s.getStep args.stepId = some ref) (hnonneg : Nonneg args.declared)
    (hroom : s.FindsRoom args) (haccepts : Accepts config moment args ref enabled s t) :
    (s.stepAt ref).Shrinks (t.stepAt ref) ∨
      ((t.stepAt ref).Booked ∧ s.Fits (t.stepAt ref).charged s.inUse) := by
  obtain ⟨hresources, hamounts, hstatus⟩ := haccepts.target_parts
  have hopened := (openedStep_plan_fields s moment args ref).2.2.1
  have hkept : (s.stepAt ref).status = .running →
      s.runsWith args ref = (s.stepAt ref).resourcesRunning := by
    intro hrunning
    obtain ⟨owner, howner⟩ := Option.isSome_iff_exists.mp
      ((hsound.recorded ref (.inl hfiled)).owner hrunning)
    refine if_neg fun hclaimed => ?_
    have hnone := hclaimed.2
    rw [howner] at hnone
    cases hnone
  have hdeclared : Nonneg (t.stepAt ref).resources := hresources ▸ hnonneg
  have hrunsWith : ∀ amounts ∈ (t.stepAt ref).resourcesRunning, Nonneg amounts :=
    hamounts ▸ hbooked.runsWith hsound.stored hfiled
  by_cases hbefore : (s.stepAt ref).status = .running
  · refine .inl ⟨fun _ => ⟨hdeclared, hrunsWith, fun _ => ?_⟩, fun _ => hbefore, fun _ _ r => ?_⟩
    · rw [hamounts, hkept hbefore]
      exact (hbooked ref hfiled).runs hbefore
    · obtain ⟨amounts, hcharged⟩ := Option.isSome_iff_exists.mp ((hbooked ref hfiled).runs hbefore)
      unfold Step.charged
      rw [hamounts, hkept hbefore, hcharged]
      exact le_rfl
  by_cases hafter : (t.stepAt ref).status = .running
  · -- only a report of a run makes the step run
    have hnew : args.status = .running := by
      rw [hstatus] at hafter
      unfold Step.report at hafter
      split at hafter
      · rcases Step.settle_running hafter with hnew | hold
        · exact newStatus_running.mp hnew
        · exact absurd (hopened.symm.trans hold) hbefore
      · exact absurd (hopened.symm.trans hafter) hbefore
    obtain ⟨amounts, hstarts, hfits⟩ := (hroom hnew ref hget).resolve_left hbefore
    have hcharged : (t.stepAt ref).resourcesRunning = some amounts := hamounts.trans hstarts
    refine .inr ⟨⟨hdeclared, hrunsWith, fun _ => by rw [hcharged]; rfl⟩, ?_⟩
    unfold Step.charged
    rw [hcharged]
    exact (hasResources_iff (getD_usedResources s)).mp hfits
  · exact .inl ⟨fun _ => ⟨hdeclared, hrunsWith, fun h => absurd h hafter⟩,
      fun h => absurd h hafter, fun _ h => absurd h hafter⟩

theorem Receipt.allShrink (hstored : s.Stored) (hreceipt : Receipt config moment args s t)
    (hnonneg : Nonneg args.declared) : AllShrink s t := by
  intro ref hleft
  rcases hreceipt.filed hstored hleft with hold | ⟨-, hnew⟩
  · rw [Shrinks, hreceipt.stepAt ref (hstored.filed_lt hold)]
    exact .inl ⟨hold, .refl _⟩
  · rw [Shrinks, hnew]
    refine .inr ⟨⟨hnonneg, ?_, ?_⟩, ?_⟩
    · rintro amounts ⟨⟩
    · rintro ⟨⟩
    · rintro ⟨⟩

theorem allShrink_failedClaim (s : Scheduler) (args : AddStepArgs) (ref : Ref) :
    AllShrink s ((s.joinStep args ref).updateStep ref fun step =>
      { step with workerRunning := some args.worker }) := by
  refine allShrink_of_object (fun other hleft => ?_) fun other => ?_
  · exact (filed_updateStep rfl).mp ((filed_updateStep rfl).mp hleft)
  · by_cases hother : other = ref
    · subst hother
      rw [stepAt_updateStep, if_pos rfl, joinStep, stepAt_updateStep, if_pos rfl]
      exact Step.shrinks_of_same rfl rfl fun h => h
    · simp only [stepAt_updateStep, joinStep, if_neg hother]
      exact .refl _

/-- `add_step` keeps to the limits where a step that it starts finds room. -/
theorem Within.adds (hwithin : s.Within limits) (hsound : s.Sound)
    (hlimits : ∀ resource, s.limit resource = limits resource) (hnonneg : Nonneg args.declared)
    (hroom : (s.receiveStep config moment args).FindsRoom args) {outcome : Except Raised Unit}
    (hadds : AddsStep config moment args (s.receiveStep config moment args) outcome t)
    (ht : t.Indexed) : t.Within limits := by
  have hreceipt := hsound.stored.receipt config moment args
  have hrsound := hsound.receiveStep config moment args
  have hreceived : (s.receiveStep config moment args).Within limits :=
    hwithin.shrinks hsound.index hrsound.index (hreceipt.allShrink hsound.stored hnonneg)
  have hrlimits : ∀ resource, (s.receiveStep config moment args).limit resource =
      limits resource := by
    intro resource
    rw [← hlimits, limit, hreceipt.resources]
    rfl
  generalize s.receiveStep config moment args = received at *
  cases hadds with
  | dropped => exact hreceived
  | @accepted ref t hget hclaim hstarts haccepts =>
      have hfiled := hrsound.index.filed hget
      have hothers := fun other hne hleft =>
        @Accepts.others_shrink received t config moment ref args _ hrsound.stored haccepts other
          hne hleft
      rcases haccepts.target_cases hrsound hreceived.booked hfiled hget hnonneg hroom with
        hshrinks | ⟨hbooked, hfits⟩
      · refine hreceived.shrinks hrsound.index ht fun other hleft => ?_
        by_cases hother : other = ref
        · rw [hother]
          exact .inl ⟨hfiled, hshrinks⟩
        · exact hothers other hother hleft
      · exact hreceived.starts hrsound.index ht hrlimits hothers hbooked hfits
  | failed => exact hreceived.shrinks hrsound.index ht (allShrink_failedClaim _ _ _)

end Adding

section Working

variable {args : GetWorkArgs}

/-- The amounts are at least those that are needed. -/
def Covers (amounts needed : Resources) : Prop :=
  ∀ entry ∈ needed.entries, entry.2 ≤ amounts.getD entry.1 0

instance (amounts needed : Resources) : Decidable (Covers amounts needed) := by
  unfold Covers; infer_instance

theorem Covers.tally_le {amounts needed : Resources} (hcovers : Covers amounts needed)
    (hnonneg : Nonneg amounts) (resource : String) :
    tally needed resource ≤ tally amounts resource := by
  cases hget : needed.get? resource with
  | none =>
      rw [tally_eq_getD needed, Dict.getD, hget]
      exact hnonneg.tally resource
  | some amount =>
      have hcovered := hcovers (resource, amount) ((needed.mem_entries_iff _ _).mpr hget)
      rw [tally_eq_getD, tally_eq_getD, Dict.getD, hget]
      exact hcovered

theorem Sound.mem_getSteps_of_filed (hsound : s.Sound) (hfiled : s.Filed ref) {worker : WorkerId}
    {statuses : List Status} :
    ref ∈ (s.workerAt worker).getSteps s statuses ↔
      (s.stepAt ref).status ∈ statuses ∧ worker ∈ (s.stepAt ref).workers := by
  have hid := hsound.rostered.worker_id worker
  have hlisted : ref ∈ (s.workerAt worker).steps ↔ worker ∈ (s.stepAt ref).workers :=
    ⟨hsound.rostered.knows, fun h => (hsound.rostered.lists hfiled h).2⟩
  unfold Worker.getSteps
  dsimp only
  split
  · rw [mem_selfSteps, hlisted]
    tauto
  · rw [hsound.index.mem_stateSteps, hid]
    tauto

/-- A step that is chosen fits on top of what is in use: a trivial worker's own steps need
nothing. -/
theorem selectWork_fits (hsound : s.Sound) {config : Config} {best : Ref} (hfiled : s.Filed best)
    (hbest : (s.selectWork args config now none).bestStep = some best) :
    s.Fits (s.stepAt best).resources s.inUse := by
  obtain ⟨hmem, hready, hfits, -⟩ :=
    (selectWork_selected s args config now none).best rfl best hbest
  rw [mem_sortByRankReverse] at hmem
  unfold relevantSteps at hmem hfits
  dsimp only at hmem hfits
  split at hmem
  · cases hmem
  split at hmem
  · rename_i htrivial
    obtain ⟨-, hfree⟩ := Bool.and_eq_true_iff.mp htrivial
    obtain ⟨-, hworker⟩ := (hsound.mem_getSteps_of_filed hfiled).mp hmem
    have hpending := (schedulable_iff.mp hready).1
    have hempty := Dict.eq_empty_of_isEmpty (List.all_eq_true.mp hfree best
      ((hsound.mem_getSteps_of_filed hfiled).mpr ⟨List.mem_singleton.mpr hpending, hworker⟩))
    rw [hempty]
    exact fits_empty _
  · rename_i hpaused htrivial
    rw [if_neg hpaused, if_neg htrivial] at hfits
    exact (hasResources_iff (getD_usedResources s)).mp hfits

/-- A choice that fits, or a run that the worker has lost and that is charged no more. -/
def Affords (s : Scheduler) (best : Ref) : Prop :=
  s.Fits (s.stepAt best).resources s.inUse ∨
    ((s.stepAt best).status = .running ∧ Covers (s.stepAt best).charged (s.stepAt best).resources)

/-- What a worker is handed keeps to the limits. -/
theorem Within.handsOut {selection : Selection} {work : Work} {worker : WorkerId}
    (hwithin : s.Within limits) (hs : s.Indexed) (ht : t.Indexed)
    (hlimits : ∀ resource, s.limit resource = limits resource)
    (hhands : HandsOut env now worker selection s work t)
    (hfiled : ∀ ref ∈ selection.picks, s.Filed ref)
    (haffords : ∀ best, selection.bestStep = some best → ¬1 < selection.batchedSteps.length →
      s.Affords best) : t.Within limits := by
  have hback := fun ref => (hhands.resembles.filed ref).mp
  cases hhands with
  | nothing => exact hwithin
  | @single best t hchosen hsize hands =>
      have hbest : s.Filed best := hfiled best (by
        rw [Selection.picks, if_neg hsize, hchosen]
        exact List.mem_singleton_self _)
      have hothers : ∀ ref, ref ≠ best → t.Filed ref → Shrinks s t ref := by
        intro ref hne hleft
        refine .inl ⟨hback ref hleft, ?_⟩
        rw [hands.object, if_neg (by simpa using hne)]
        exact .refl _
      have hhanded : t.stepAt best = (s.stepAt best).handed worker now := by
        rw [hands.object, if_pos (List.mem_singleton_self _)]
      have hbooked : (t.stepAt best).Booked := hhanded ▸ (hwithin.booked best hbest).handed _ _
      have hcharged : (t.stepAt best).charged = (s.stepAt best).resources := by
        rw [hhanded]
        rfl
      rcases haffords best hchosen hsize with hfits | ⟨hrunning, hcovers⟩
      · exact hwithin.starts hs ht hlimits hothers hbooked (hcharged ▸ hfits)
      · refine hwithin.shrinks hs ht fun ref hleft => ?_
        by_cases href : ref = best
        · rw [href]
          refine .inl ⟨hbest, fun _ => hbooked, fun _ => hrunning, fun hold _ resource => ?_⟩
          rw [hcharged]
          exact hcovers.tally_le hold.nonneg resource
        · exact hothers ref href hleft
  | batch hsize hids hands =>
      refine hwithin.shrinks hs ht fun ref hleft => .inl ⟨hback ref hleft, ?_⟩
      rw [hands.object]
      split
      · exact Step.shrinks_reserved ..
      · exact .refl _

/-- A lost run is charged no more than before when it is handed out again. -/
def FindsLost (s : Scheduler) (args : GetWorkArgs) : Prop :=
  ∀ ref ∈ s.lostStep args, Covers (s.stepAt ref).charged (s.stepAt ref).resources

instance (s : Scheduler) (args : GetWorkArgs) : Decidable (s.FindsLost args) := by
  unfold FindsLost; infer_instance

theorem Greets.affords (hgreets : Greets s t) {best : Ref} (haffords : s.Affords best) :
    t.Affords best := by
  obtain ⟨workers, rfl⟩ := hgreets.eq_with
  exact haffords

theorem Prepares.resources (hprepares : Prepares now args s t) : t.resources = s.resources := by
  obtain ⟨u, hgreets, hsame⟩ := hprepares.greeted
  exact hsame.resources.trans hgreets.resources

theorem Prunes.resources (hprunes : Prunes config now s t) : t.resources = s.resources := by
  obtain ⟨swept, removed, hsweeps, hdrops, -⟩ := hprunes.outcome
  exact hdrops.surroundings.resources.trans
    (hsweeps.same.resources.trans hprunes.inactivates.resources)

theorem Receives.resources (hreceives : Receives env moment s t) : t.resources = s.resources := by
  cases hprune : env.config.pruneOnGetWork with
  | true =>
      obtain ⟨pruned, hprunes, hgreets⟩ := hreceives.prunes hprune
      exact hgreets.resources.trans hprunes.resources
  | false => exact (hreceives.greets hprune).resources

/-- `get_work` keeps to the limits where a lost run is not charged more. -/
theorem Within.getsWork (hwithin : s.Within limits) (hsound : s.Sound)
    (hlimits : ∀ resource, s.limit resource = limits resource)
    (hlooks : env.LooksAtFiledSteps s moment args)
    (hfinds : (env.received s moment args).FindsLost args) {outcome : Except Raised Reply}
    (hworks : GetsWork env moment args s outcome t) (ht : t.Indexed) : t.Within limits := by
  have hreceivedSound : (env.received s moment args).Sound := hsound.receives hworks.receives
  have hreceived : (env.received s moment args).Within limits :=
    hwithin.shrinks hsound.index hreceivedSound.index hworks.receives.allShrink
  have hrankedSound := env.ranked_sound hsound moment args
  cases hworks with
  | refused => exact hreceived
  | @failed counted error hreceives henabled hprepares hgreets =>
      have hranked := hreceived.shrinks hreceivedSound.index hrankedSound.index hprepares.allShrink
      exact hranked.shrinks hrankedSound.index ht hgreets.allShrink
  | @served counted t pending work hreceives henabled hprepares hgreets hhands =>
      have hranked := hreceived.shrinks hreceivedSound.index hrankedSound.index hprepares.allShrink
      have hcountedStored := hgreets.stored hrankedSound.stored
      have hcounted := hranked.shrinks hrankedSound.index hcountedStored.index hgreets.allShrink
      have hpicks := fun ref => picks_filed env moment args ref hsound.stored hsound.retriable
        henabled hlooks
      refine hcounted.handsOut hcountedStored.index ht (fun resource => ?_) hhands
        (fun ref href => (hgreets.filed ref).mpr (hpicks ref href).1) fun best hbest hsize => ?_
      · rw [← hlimits, Scheduler.limit, hgreets.resources, hprepares.resources,
          hreceives.resources]
        rfl
      refine hgreets.affords ?_
      cases hlost : (env.received s moment args).lostStep args with
      | none =>
          rw [hlost] at hbest hpicks hsize
          refine .inl (selectWork_fits hrankedSound (hpicks best ?_).1 hbest)
          rw [Selection.picks, if_neg hsize, hbest]
          exact List.mem_singleton_self _
      | some taken =>
          have hselected := selectWork_selected (env.ranked s moment args) args env.config
            moment.now ((env.received s moment args).lostStep args)
          obtain ⟨htaken, -⟩ := hselected.taken taken hlost
          obtain rfl : best = taken := Option.some.inj (hbest.symm.trans htaken)
          obtain ⟨current, -, hactive, -⟩ := lostStep_cases hlost
          obtain ⟨-, hstatus⟩ := hreceivedSound.index.mem_activeStepsByStatus.mp hactive
          have hrunning := List.mem_singleton.mp hstatus
          have hkept : (env.ranked s moment args).stepAt best =
              (env.received s moment args).stepAt best := by
            rw [hprepares.object, if_neg]
            rintro ⟨-, horphan⟩
            rw [(hreceivedSound.index.mem_orphanedSteps.mp horphan).2.1] at hrunning
            cases hrunning
          unfold Affords
          rw [hkept]
          exact .inr ⟨hrunning, hfinds best hlost⟩

end Working

/-! ## The table of limits -/

theorem AddsStep.resources {received : Scheduler} {args : AddStepArgs}
    {outcome : Except Raised Unit} (hadds : AddsStep config moment args received outcome t) :
    t.resources = received.resources := by
  cases hadds with
  | accepted _ _ _ haccepts => exact haccepts.resources
  | dropped | failed => rfl

theorem resources_load (s : Scheduler) : s.load.resources = s.resources := by
  have hfiles : ∀ (refs : List Ref) (u : Scheduler),
      (refs.foldl fileStep u).resources = u.resources := by
    intro refs
    induction refs with
    | nil => exact fun _ => rfl
    | cons ref rest ih => exact fun u => ih (u.fileStep ref)
  unfold load
  split
  · rfl
  · exact hfiles _ _

theorem Handles.resources {event : Event} {outcome : Except Raised Response}
    (hhandles : Handles env s event outcome t) (husers : event.request.isWorkers = false) :
    t.resources = s.resources := by
  cases hhandles with
  | serves hserves =>
      cases hserves with
      | adds | works | prunes => cases husers
      | rests hquiet =>
          obtain ⟨moment, request⟩ := event
          cases request <;> cases husers <;> cases hquiet
  | marks _ hsettles | forgives _ _ hsettles => exact hsettles.same.resources
  | reEnables _ _ hreEnables => exact hreEnables.same.resources
  | idle | dumps => rfl
  | @disables moment worker =>
      exact (greets_ensureWorker (s.removeWorkersFromSteps [worker] false) moment.now
        worker).resources.trans (sameTables_removeWorkersFromSteps s [worker] false).1.resources
  | loads => exact resources_load s

theorem resources_decrease (id : StepId) (amounts : Resources) :
    ((decreaseRunningStepResources id amounts).final s).resources = s.resources :=
  (decreaseRunningStepResources_honours
    { inv := fun _ => True, rel := fun s t => t.resources = s.resources
      allows := fun _ => True, refl := fun _ => rfl, trans := fun h h' => h'.trans h }
    (fun _ => trivial) (fun _ => trivial) (fun _ _ _ _ _ => rfl) id amounts s trivial).2.1

theorem resources_quiet {request : Request} (hquiet : request.isQuiet = true)
    (hall : ∀ resources, request ≠ .updateResources resources)
    (hone : ∀ resource amount, request ≠ .updateResource resource amount) :
    (env.after s ⟨moment, request⟩).resources = s.resources := by
  cases request with
  | countPending worker =>
      obtain ⟨-, hgreets, -⟩ := reply_meets Response.pending (countPending_meets moment worker s)
      exact Greets.resources hgreets
  | ping worker => exact (greets_updateWorker s moment.now worker false).resources
  | addWorker worker info => exact (greets_addWorker s moment.now worker info).resources
  | decreaseRunningStepResources id amounts =>
      rcases hrun : (decreaseRunningStepResources id amounts).exec s with ⟨outcome, t⟩
      have hafter : env.after s ⟨moment, .decreaseRunningStepResources id amounts⟩ = t :=
        congrArg Prod.snd (exec_reply (fun _ => Response.nothing) hrun)
      have hsame := @resources_decrease s id amounts
      rw [final, hrun] at hsame
      rwa [hafter]
  | setStepStatusMessage id message =>
      have hdescribes : Describes s (s.setStepStatusMessage id message) :=
        describes_reportToBatch s id (fun _ => rfl) fun _ => rfl
      exact hdescribes.same.resources
  | setStepProgressPercentage id percentage =>
      have hdescribes : Describes s (s.setStepProgressPercentage id percentage) :=
        describes_reportToBatch s id (fun _ => rfl) fun _ => rfl
      exact hdescribes.same.resources
  | updateResources resources => exact absurd rfl (hall resources)
  | updateResource resource amount => exact absurd rfl (hone resource amount)
  | addStepBatcher | pause | unpause => rfl
  | addStep | getWork | prune | markAsDone | forgiveFailures | reEnableStep | disableWorker
  | dump | load => cases hquiet

end Scheduler

open Scheduler

/-! ## Runs of the scheduler -/

namespace Env

variable (env : Env) {s : Scheduler} {limits : String → Int}

/-- The limits stay, demands are not negative, and a run that is started without `get_work`
or that a worker has lost finds room. -/
def KeepsLimits (s : Scheduler) (event : Event) : Prop :=
  match event.request with
  | .addStep args =>
      Nonneg args.declared ∧ (s.receiveStep env.config event.moment args).FindsRoom args
  | .getWork args =>
      env.LooksAtFiledSteps s event.moment args ∧
        (env.received s event.moment args).FindsLost args
  | .updateResources _ | .updateResource _ _ => False
  | _ => True

instance (s : Scheduler) (event : Event) : Decidable (env.KeepsLimits s event) := by
  obtain ⟨moment, request⟩ := event
  induction request using Request.casesOn <;> dsimp only [KeepsLimits] <;> infer_instance

theorem KeepsLimits.handsOut {env : Env} {s : Scheduler} {event : Event}
    (hkeeps : env.KeepsLimits s event) : HandsOutFiledSteps env s event := by
  obtain ⟨moment, request⟩ := event
  cases request with
  | getWork args => exact hkeeps.1
  | _ => exact trivial

/-- Only the two requests that say so write the table of limits. -/
theorem resources_after {event : Event} (hsound : s.Sound) (hkeeps : env.KeepsLimits s event) :
    (env.after s event).resources = s.resources := by
  have hhandles := hsound.handles hkeeps.handsOut
  obtain ⟨moment, request⟩ := event
  by_cases hquiet : request.isQuiet = true
  · exact resources_quiet hquiet (by rintro _ rfl; exact hkeeps) (by rintro _ _ rfl; exact hkeeps)
  cases request with
  | addStep args =>
      obtain ⟨outcome, hadds, -⟩ := hsound.after_addStep env moment args
      exact hadds.resources.trans (hsound.stored.receipt env.config moment args).resources
  | getWork args =>
      obtain ⟨outcome, hworks, -⟩ := hsound.after_getWork env moment hkeeps.1
      exact hworks.resembles.resources.trans hworks.receives.resources
  | prune => exact (hsound.after_prune env moment).1.resources
  | load => exact resources_load s
  | markAsDone | forgiveFailures | reEnableStep | disableWorker | dump =>
      exact hhandles.resources rfl
  | countPending | ping | addWorker | addStepBatcher | decreaseRunningStepResources
  | setStepStatusMessage | setStepProgressPercentage | updateResources | updateResource
  | pause | unpause => exact absurd rfl hquiet

/-- What holds of every state. -/
def Thrifty (limits : String → Int) (s : Scheduler) : Prop := s.Sound ∧ s.Within limits

theorem within_after {event : Event} (hsound : s.Sound) (hwithin : s.Within limits)
    (hlimits : ∀ resource, s.limit resource = limits resource) (hkeeps : env.KeepsLimits s event)
    (hload : event.request ≠ .load) (ht : (env.after s event).Indexed) :
    (env.after s event).Within limits := by
  have hhands := hkeeps.handsOut
  have hindex := hsound.index
  obtain ⟨moment, request⟩ := event
  by_cases hquiet : request.isQuiet = true
  · exact hwithin.shrinks hindex ht (allShrink_quiet hquiet)
  cases request with
  | addStep args =>
      obtain ⟨outcome, hadds, -⟩ := hsound.after_addStep env moment args
      exact hwithin.adds hsound hlimits hkeeps.1 hkeeps.2 hadds ht
  | getWork args =>
      obtain ⟨outcome, hworks, -⟩ := hsound.after_getWork env moment hkeeps.1
      exact hwithin.getsWork hsound hlimits hkeeps.1 hkeeps.2 hworks ht
  | prune =>
      obtain ⟨hprunes, -⟩ := hsound.after_prune env moment
      exact hwithin.shrinks hindex ht hprunes.allShrink
  | load => exact absurd rfl hload
  | markAsDone | forgiveFailures | reEnableStep | disableWorker | dump =>
      have hshrinks := (hsound.handles hhands).allShrink hsound rfl (by rintro ⟨⟩)
      exact hwithin.shrinks hindex ht hshrinks
  | countPending | ping | addWorker | addStepBatcher | decreaseRunningStepResources
  | setStepStatusMessage | setStepProgressPercentage | updateResources | updateResource
  | pause | unpause => exact absurd rfl hquiet

/-- One request that keeps to the limits. -/
theorem thrifty_after {event : Event} (hlasting : Lasting (Thrifty limits) s)
    (hlimits : ∀ resource, s.limit resource = limits resource)
    (hkeeps : env.KeepsLimits s event) : Lasting (Thrifty limits) (env.after s event) := by
  have hhands := hkeeps.handsOut
  refine lasting_after (fun {u v} hthrifty hindex hcontents => ?_) (fun h => h.1) hlasting
    hhands fun hload _ => ?_
  · have hsound := hthrifty.1.reindex hindex hcontents.heap hcontents.nextRef hcontents.steps
      hcontents.activeWorkers
    have hshrinks : AllShrink u v := by
      refine allShrink_of_object (fun ref => hcontents.continues.filed ref) fun ref => ?_
      have hsame : v.stepAt ref = u.stepAt ref := by
        simp only [Scheduler.stepAt, hcontents.heap]
      rw [hsame]
      exact .refl _
    exact ⟨hsound, hthrifty.2.shrinks hthrifty.1.index hindex hshrinks⟩
  · obtain ⟨hsound, hwithin⟩ := hlasting.1
    have hafter := (Sound.after (hlasting.mono fun _ h => h.1) hhands).1.1
    exact ⟨hafter, env.within_after hsound hwithin hlimits hkeeps hload hafter.index⟩

/-- In every state of every run that keeps to the limits, what the running steps use of a
resource is at most its limit. -/
theorem limits_hold {resources : Resources} {events : List Event}
    (hlimits : ∀ resource, 0 ≤ (Scheduler.initial resources).limit resource)
    (hkeeps : Along env.after env.KeepsLimits (.initial resources) events) (resource : String) :
    (env.run (.initial resources) events).inUse resource ≤
      (Scheduler.initial resources).limit resource := by
  have hinitial : Lasting (Thrifty (Scheduler.initial resources).limit) (.initial resources) := by
    refine ⟨⟨(initial_sound resources).1, fun ref hfiled => ?_, fun resource => ?_⟩,
      fun saved hsaved => ?_⟩
    · unfold Filed at hfiled
      cases hfiled
    · exact hlimits resource
    · cases hsaved
  have hreached := runAll_invariant env.after env.KeepsLimits
    (fun s => Lasting (Thrifty (Scheduler.initial resources).limit) s ∧ s.resources = resources)
    (fun s event hstate hevent => ?_) ⟨hinitial, rfl⟩ hkeeps
  · exact hreached.1.1.2.inUse resource
  · obtain ⟨hlasting, hresources⟩ := hstate
    refine ⟨env.thrifty_after hlasting (fun resource => ?_) hevent,
      (env.resources_after hlasting.1.1 hevent).trans hresources⟩
    rw [limit, hresources]
    rfl

end Env

/-- The batch runs with the amounts of its first member, which fit. -/
theorem limits_hold_startedBatch :
    (batchEnv.run (.initial ∅) startedBatch).inUse "r" ≤ (Scheduler.initial ∅).limit "r" :=
  @Env.limits_hold batchEnv ∅ startedBatch (fun _ => (by decide : (0 : Int) ≤ 1))
    (by decide +kernel) "r"

example : (batchEnv.run (.initial ∅) startedBatch).inUse "r" = 1 := by decide +kernel

end Trun
