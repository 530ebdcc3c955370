import Trun.Scheduler.Needed
import Trun.Scheduler.Disabling
import Trun.Scheduler.Repeating

/-!
# Steps that nobody needs leave the state

`prune` marks a step without stakeholders, and removes it once `remove_delay` has passed.
In between only an `add_step` of the step itself takes the mark away: neither a report of
another step that depends on it nor a worker that is given the step to run does.
-/

namespace Trun

open Program

/-- What a request may make of the removal stamp of a step, unless it schedules the step. -/
inductive Stamps (config : Config) (now : Time) : Option Removal → Option Removal → Prop where
  | kept {stamp : Option Removal} : Stamps config now stamp stamp
  | failed {stamp : Option Removal} : Stamps config now stamp (some ⟨now, true⟩)
  | marked : Stamps config now none (some ⟨now + config.removeDelay, false⟩)

/-- A removal of the stamp lies in front of the bound, and is not taken for none. -/
def Dated (bound : Time) (stamp : Option Removal) : Prop :=
  ∀ removal ∈ stamp, 0 < removal.due ∧ removal.due ≤ bound

section Stamps

variable {config : Config} {now bound : Time} {first middle last : Option Removal}

theorem Stamps.of_eq (hsame : last = first) : Stamps config now first last := by
  rw [hsame]
  exact .kept

theorem Stamps.trans (hfirst : Stamps config now first middle)
    (hlast : Stamps config now middle last) : Stamps config now first last := by
  cases hlast with
  | kept => exact hfirst
  | failed => exact .failed
  | marked =>
      cases hfirst
      exact .marked

/-- No stamp is lost. -/
theorem Stamps.isSome (hstamps : Stamps config now first last) (hfirst : first.isSome = true) :
    last.isSome = true := by
  cases hstamps with
  | kept => exact hfirst
  | failed => rfl
  | marked => rfl

theorem Stamps.dated (hstamps : Stamps config now first last) (hdated : Dated bound first)
    (hpositive : 0 < now) (hdelay : 0 ≤ config.removeDelay)
    (hbound : now + config.removeDelay ≤ bound) : Dated bound last := by
  cases hstamps with
  | kept => exact hdated
  | failed =>
      intro removal hremoval
      obtain rfl := Option.mem_some.mp hremoval
      exact ⟨hpositive, (Int.le_add_of_nonneg_right hdelay).trans hbound⟩
  | marked =>
      intro removal hremoval
      obtain rfl := Option.mem_some.mp hremoval
      exact ⟨Int.add_pos_of_pos_of_nonneg hpositive hdelay, hbound⟩

theorem dated_none (bound : Time) : Dated bound none := by
  intro removal hremoval
  cases hremoval

end Stamps

/-- The request schedules the step or reports its status. -/
def Request.addsStep (id : StepId) : Request → Bool
  | .addStep args => args.stepId == id
  | _ => false

theorem Lasting.mono {invariant other : Scheduler → Prop} {s : Scheduler}
    (hlasting : Lasting invariant s) (himp : ∀ s, invariant s → other s) : Lasting other s := by
  refine ⟨himp s hlasting.1, fun saved hsaved => ?_⟩
  obtain ⟨u, hu, heq⟩ := hlasting.2 saved hsaved
  exact ⟨u, himp u hu, heq⟩

namespace Step

variable {config : Config} {now bound : Time} {assistants : List WorkerId} {a b step : Step}

/-- Nobody has a stake in the step, and no live worker runs it. -/
def Unwanted (step : Step) (assistants : List WorkerId) : Prop :=
  step.stakeholders = ∅ ∧ (step.status = .running → step.runByDead assistants = true)

instance (step : Step) (assistants : List WorkerId) : Decidable (step.Unwanted assistants) := by
  unfold Unwanted; infer_instance

/-- Until its visit the step stays unwanted. -/
theorem Unwanted.swept (hunwanted : a.Unwanted assistants) (hswept : a.Swept config now b) :
    b.Unwanted assistants := by
  refine ⟨hswept.stakeholders.trans hunwanted.1, fun hrunning => ?_⟩
  have hrun := hswept.running (by rw [hrunning]; rfl)
  rw [hrun.runByDead hswept.stakeholders]
  exact hunwanted.2 (hrun.status.symm.trans hrunning)

theorem stamps_settle (config : Config) (now : Time) (step : Step) (newStatus : Status) :
    Stamps config now step.remove (step.settle (some config) now newStatus).remove := by
  rcases step.settle_remove (some config) now newStatus with hsame | ⟨-, hfailed⟩
  · exact .of_eq hsame
  · rw [hfailed]
    exact .failed

theorem Swept.stamps (hswept : a.Swept config now b) : Stamps config now a.remove b.remove := by
  rcases hswept.remove with hsame | hfailed | ⟨hmarked, hnone, -⟩
  · exact .of_eq hsame
  · rw [hfailed]
    exact .failed
  · rw [hmarked, hnone]
    exact .marked

/-- A dated stamp is due from its bound on. -/
theorem mayPrune_of_dated (hstamp : step.remove.isSome = true) (hdated : Dated bound step.remove)
    (hbound : bound ≤ now) : step.mayPrune now = true := by
  obtain ⟨removal, hremoval⟩ := Option.isSome_iff_exists.mp hstamp
  obtain ⟨hpositive, hdue⟩ := hdated removal hremoval
  unfold mayPrune
  rw [hremoval]
  simp only [Bool.and_eq_true, bne_iff_ne, decide_eq_true_eq]
  exact ⟨hpositive.ne', hdue.trans hbound⟩

/-- A stamp that is due at a time stays so while requests come in front of it. -/
theorem mayPrune_of_stamps (hstamps : Stamps config now a.remove b.remove)
    (hdue : a.mayPrune bound = true) (hpositive : 0 < now) (hbound : now ≤ bound) :
    b.mayPrune bound = true := by
  unfold mayPrune at hdue ⊢
  generalize a.remove = before at *
  generalize b.remove = after at *
  cases hstamps with
  | kept => exact hdue
  | failed =>
      simp only [Bool.and_eq_true, bne_iff_ne, decide_eq_true_eq]
      exact ⟨hpositive.ne', hbound⟩
  | marked => cases hdue

end Step

namespace Scheduler

variable {s t u : Scheduler} {env : Env} {config : Config} {now : Time} {moment : Moment}
variable {assistants : List WorkerId} {ref : Ref}

/-! ## One `prune` -/

theorem stamps_reEnableIfExpired (config : Config) (now : Time) (step : Step) :
    Stamps config now step.remove (step.reEnableIfExpired config now).remove := by
  have henabled : Stamps config now step.remove (step.reEnabled config now).remove :=
    step.reEnable.stamps_settle config now .failed
  unfold Step.reEnableIfExpired
  split
  · split
    · exact henabled
    · exact .kept
  · exact .kept

theorem stamps_retryIfDue (config : Config) (now : Time) (step : Step) :
    Stamps config now step.remove (step.retryIfDue config now).remove := by
  unfold Step.retryIfDue
  split
  · split
    · exact .kept
    · split
      · exact step.stamps_settle config now .pending
      · exact .kept
  · exact .kept

/-- A step that nobody has a stake in is marked, unless it runs. -/
theorem stampUnneeded_isSome {step : Step} (hempty : step.stakeholders = ∅)
    (hstopped : step.status ≠ .running) :
    (step.stampUnneeded config now).remove.isSome = true := by
  unfold Step.stampUnneeded
  split
  · rfl
  · rename_i hnot
    rw [Option.isSome_iff_ne_none]
    exact fun hnone => hnot ⟨hempty, hnone, hstopped⟩

theorem visited_isSome {step : Step} (hunwanted : step.Unwanted assistants) :
    (step.visited config now assistants).remove.isSome = true := by
  obtain ⟨hempty, hdead⟩ := hunwanted
  have hfail : (step.failDead config now assistants).stakeholders = ∅ ∧
      (step.failDead config now assistants).status ≠ .running := by
    unfold Step.failDead
    split
    · refine ⟨(congrArg Step.stakeholders (Step.settle_plan ..) :).trans hempty, ?_⟩
      have hstopped := Step.settle_not_running { step with workerRunning := none } (some config)
        now .failed rfl (by decide)
      intro hrunning
      dsimp only at hrunning
      rw [hrunning] at hstopped
      cases hstopped
    · rename_i hruns
      exact ⟨hempty, fun hrunning => hruns (hdead hrunning)⟩
  have hmarked := @stampUnneeded_isSome config now _ hfail.1 hfail.2
  exact (stamps_retryIfDue config now _).isSome
    ((stamps_reEnableIfExpired config now _).isSome hmarked)

theorem Visits.marks {refs : List Ref} (hvisits : Visits config now assistants refs s t)
    (hmem : ref ∈ refs) (hunwanted : (s.stepAt ref).Unwanted assistants) :
    (t.stepAt ref).remove.isSome = true := by
  induction hvisits with
  | nil => cases hmem
  | @cons first rest s u t hsweeps hobject hrest ih =>
      by_cases href : ref = first
      · subst href
        have hown : (u.stepAt ref).remove.isSome = true := by
          rw [hobject, visitedAt, if_pos rfl]
          exact visited_isSome hunwanted
        exact (hrest.swept ref).stamps.isSome hown
      · exact ih ((List.mem_cons.mp hmem).resolve_left href)
          (hunwanted.swept (hsweeps.object ref))

/-- The loop returns the steps whose stamp is due. -/
theorem visitSteps_takes (hindex : s.Indexed) (hretry : s.Retriable) {refs : List Ref}
    (hfiled : ∀ ref ∈ refs, s.Filed ref) (hpositive : 0 < now) {removed : List StepId}
    (hrun : (visitSteps config now assistants refs).exec s = (.ok removed, t))
    (hmem : ref ∈ refs) (hdue : (s.stepAt ref).mayPrune now = true) :
    (s.stepAt ref).id ∈ removed := by
  induction refs generalizing s t removed with
  | nil => cases hmem
  | cons first rest ih =>
      obtain ⟨failed, u, hrunFail, hrunUpdate, hsweeps, -⟩ :=
        visit_writes config now assistants hindex hretry (hfiled first (List.mem_cons_self ..))
      have hrestFiled : ∀ other ∈ rest, u.Filed other := fun other hother =>
        (hsweeps.filed other).mpr (hfiled other (List.mem_cons_of_mem _ hother))
      obtain ⟨v, others, hrunRest, -⟩ := visitSteps_visits config now assistants hsweeps.index
        (hsweeps.retriable hretry) rest hrestFiled
      have hremoved : removed =
          if (u.stepAt first).mayPrune now = true then (u.stepAt first).id :: others
          else others := by
        have hwhole : (visitSteps config now assistants (first :: rest)).exec s = (.ok
            (if (u.stepAt first).mayPrune now = true then (u.stepAt first).id :: others
              else others), v) := by
          unfold visitSteps
          refine (exec_bind_ok hrunFail).trans ((exec_bind_ok hrunUpdate).trans ?_)
          rw [exec_get_bind]
          exact (exec_bind_ok hrunRest).trans rfl
        rw [hwhole] at hrun
        exact (Except.ok.inj (Prod.mk.inj hrun).1).symm
      have hstays : (u.stepAt ref).mayPrune now = true :=
        Step.mayPrune_of_stamps (hsweeps.object ref).stamps hdue hpositive le_rfl
      have hid := (hsweeps.object ref).id
      rw [hremoved]
      by_cases href : ref = first
      · subst href
        rw [if_pos hstays, hid]
        exact List.mem_cons_self ..
      · have hlater : (u.stepAt ref).id ∈ others :=
          ih hsweeps.index (hsweeps.retriable hretry) hrestFiled hrunRest
            ((List.mem_cons.mp hmem).resolve_left href) hstays
        rw [← hid]
        split
        · exact List.mem_cons_of_mem _ hlater
        · exact hlater

theorem inactivateStep_erases {id : StepId} (hrun : (inactivateStep id).exec s = (.ok (), t)) :
    t.getStep id = none := by
  unfold inactivateStep at hrun
  rw [exec_get_bind] at hrun
  split at hrun
  · cases hrun
  · rw [exec_modify_bind] at hrun
    split at hrun
    · cases hrun
      unfold Scheduler.getStep
      dsimp only
      rw [Dict.get?_erase, if_pos rfl]
    · cases hrun

/-- `inactivate_steps` removes the given rows. -/
theorem getStep_of_inactivated {ids : List StepId}
    (hrun : (inactivateSteps ids).exec s = (.ok (), t)) {id : StepId} (hmem : id ∈ ids) :
    t.getStep id = none := by
  induction ids generalizing s with
  | nil => cases hmem
  | cons first rest ih =>
      obtain ⟨_, u, hfirst, hrest⟩ :=
        @exec_bind_eq_ok _ _ _ _ (inactivateStep first) (fun _ => inactivateSteps rest) _ _ _ hrun
      by_cases hlater : id ∈ rest
      · exact ih hrest hlater
      · obtain rfl := (List.mem_cons.mp hmem).resolve_right hlater
        exact (getStep_inactivateSteps hrest hlater).trans (inactivateStep_erases hfirst)

theorem Inactivates.remove {workers : List WorkerId} (hinactivates : Inactivates workers s t)
    (ref : Ref) : (t.stepAt ref).remove = (s.stepAt ref).remove := by
  rw [hinactivates.object]
  split
  · rfl
  · rfl

/-- `prune` marks the steps that nobody wants. -/
theorem prune_marks (hstored : s.Stored) (hretry : s.Retriable)
    (hrun : (prune config now).exec s = (.ok (), t)) (hfiled : s.Filed ref)
    (hunwanted : ((s.pruneWorkers config now).stepAt ref).Unwanted
      (s.pruneWorkers config now).assistants) :
    (t.stepAt ref).remove.isSome = true := by
  obtain ⟨-, hmem, visited, hvisits, hsame⟩ := prune_visits hstored hretry hrun
  rw [hsame]
  exact hvisits.marks ((hmem ref).mpr hfiled) hunwanted

/-- `prune` takes away the steps whose stamp is due. -/
theorem prune_takes (hstored : s.Stored) (hretry : s.Retriable)
    (hrun : (prune config now).exec s = (.ok (), t)) (hpositive : 0 < now)
    (hdue : (s.stepAt ref).mayPrune now = true) : ¬t.Filed ref := by
  have hinactivates : Inactivates (s.silentWorkers config now) s (s.pruneWorkers config now) :=
    inactivateWorkers_spec hstored _
  obtain ⟨t', hrun', hprunes⟩ := prune_spec hstored hretry config now
  obtain rfl : t = t' := (Prod.mk.inj (hrun.symm.trans hrun')).2
  set kept := s.pruneWorkers config now with hkept
  have hindex := hinactivates.stored.index
  have hactive : ∀ other ∈ kept.activeSteps, kept.Filed other := fun other hother =>
    hindex.mem_activeSteps.mp hother
  obtain ⟨visited, removed, hvisit, -⟩ := visitSteps_visits config now kept.assistants hindex
    (hinactivates.retriable hretry) kept.activeSteps hactive
  have hrest : (inactivateSteps removed).exec visited = (.ok (), t) := by
    unfold prune pruneSteps at hrun
    rw [exec_modify_bind, exec_get_bind, ← hkept] at hrun
    exact (exec_bind_ok hvisit).symm.trans hrun
  intro hleft
  have hfiled := (hinactivates.filed ref).mpr (hprunes.filed hleft)
  have hremove : (kept.stepAt ref).mayPrune now = true := by
    rw [Step.mayPrune_congr (hinactivates.remove ref)]
    exact hdue
  have htaken := visitSteps_takes hindex (hinactivates.retriable hretry) hactive hpositive hvisit
    (hindex.mem_activeSteps.mpr hfiled) hremove
  unfold Filed at hleft
  rw [(hprunes.object ref).id, getStep_of_inactivated hrest htaken] at hleft
  cases hleft

/-! ## Any request -/

/-- The stamps after a request: a step that is not new, and that the request does not
schedule, keeps the stamp it has. -/
def Restamps (config : Config) (now : Time) (request : Request) (s t : Scheduler) : Prop :=
  ∀ ref, t.Filed ref →
    (s.Filed ref ∧ Stamps config now (s.stepAt ref).remove (t.stepAt ref).remove) ∨
      (Stamps config now none (t.stepAt ref).remove ∧
        (s.Filed ref → request.addsStep (s.stepAt ref).id = true))

theorem Restamps.stamps {request : Request} (hrestamps : Restamps config now request s t)
    (hfiled : s.Filed ref) (hleft : t.Filed ref)
    (hother : request.addsStep (s.stepAt ref).id = false) :
    Stamps config now (s.stepAt ref).remove (t.stepAt ref).remove := by
  rcases hrestamps ref hleft with ⟨-, hstamps⟩ | ⟨-, hadds⟩
  · exact hstamps
  · rw [hadds hfiled] at hother
    cases hother

/-- Every stamp in the table lies in front of the bound. -/
def StampsDated (bound : Time) (s : Scheduler) : Prop :=
  ∀ ref, s.Filed ref → Dated bound (s.stepAt ref).remove

theorem Restamps.dated {request : Request} {bound : Time}
    (hrestamps : Restamps config now request s t) (hdated : s.StampsDated bound)
    (hpositive : 0 < now) (hdelay : 0 ≤ config.removeDelay)
    (hbound : now + config.removeDelay ≤ bound) : t.StampsDated bound := by
  intro ref hfiled
  rcases hrestamps ref hfiled with ⟨hold, hstamps⟩ | ⟨hstamps, -⟩
  · exact hstamps.dated (hdated ref hold) hpositive hdelay hbound
  · exact hstamps.dated (dated_none bound) hpositive hdelay hbound

theorem restamps_of_same {request : Request} (hfiled : ∀ ref, t.Filed ref → s.Filed ref)
    (hremove : ∀ ref, (t.stepAt ref).remove = (s.stepAt ref).remove) :
    Restamps config now request s t := fun ref hleft =>
  .inl ⟨hfiled ref hleft, .of_eq (hremove ref)⟩

theorem Prunes.stamps (hprunes : Prunes config now s t) (ref : Ref) :
    Stamps config now (s.stepAt ref).remove (t.stepAt ref).remove := by
  rw [← hprunes.inactivates.remove ref]
  exact (hprunes.object ref).stamps

theorem Settles.stamps {newStatus : Status} (hsettles : Settles config now ref newStatus s t)
    (other : Ref) : Stamps config now (s.stepAt other).remove (t.stepAt other).remove := by
  rw [hsettles.object]
  unfold settled
  split_ifs with hother
  · rw [hother]
    exact Step.stamps_settle ..
  · exact Step.stamps_settle ..
  · exact .kept

theorem ReEnables.stamps (hreEnables : ReEnables config now ref s t) (other : Ref) :
    Stamps config now (s.stepAt other).remove (t.stepAt other).remove := by
  rw [hreEnables.object]
  split
  · rename_i hother
    rw [hother]
    exact (s.stepAt ref).reEnable.stamps_settle config now .failed
  · exact .kept

theorem Resembles.remove (hresembles : Resembles s t) (ref : Ref) :
    (t.stepAt ref).remove = (s.stepAt ref).remove :=
  (congrArg Step.remove (hresembles.unmarked ref) :)

/-- After its `prune`, `get_work` leaves everything but the marks of runs alone. -/
theorem GetsWork.resembles {args : GetWorkArgs} {outcome : Except Raised Reply}
    (hworks : GetsWork env moment args s outcome t) :
    Resembles (env.received s moment args) t := by
  cases hworks with
  | refused => exact (Greets.refl _).resembles
  | failed _ _ hprepares hgreets => exact hprepares.resembles.trans hgreets.resembles
  | served _ _ hprepares hgreets hhands =>
      exact (hprepares.resembles.trans hgreets.resembles).trans hhands.resembles

theorem GetsWork.receives {args : GetWorkArgs} {outcome : Except Raised Reply}
    (hworks : GetsWork env moment args s outcome t) :
    Receives env moment s (env.received s moment args) := by
  cases hworks <;> assumption

theorem Receives.restamps {request : Request} (hreceives : Receives env moment s t) :
    Restamps env.config moment.now request s t := by
  intro ref hleft
  cases hprune : env.config.pruneOnGetWork with
  | true =>
      obtain ⟨pruned, hprunes, hgreets⟩ := hreceives.prunes hprune
      rw [hgreets.stepAt]
      exact .inl ⟨hprunes.filed ((hgreets.filed ref).mp hleft), hprunes.stamps ref⟩
  | false =>
      have hgreets := hreceives.greets hprune
      rw [hgreets.stepAt]
      exact .inl ⟨(hgreets.filed ref).mp hleft, .kept⟩

/-- What `get_work` does to the stamps it does in its `prune`. -/
theorem GetsWork.restamps {args : GetWorkArgs} {outcome : Except Raised Reply} {request : Request}
    (hworks : GetsWork env moment args s outcome t) :
    Restamps env.config moment.now request s t := by
  intro ref hleft
  rw [hworks.resembles.remove]
  exact hworks.receives.restamps ref ((hworks.resembles.filed ref).mp hleft)

section Adding

variable {args : AddStepArgs} {enabled : Bool}

/-- An accepted request takes the stamp of its step away. -/
theorem Accepts.target_stamps (haccepts : Accepts config moment args ref enabled s t) :
    Stamps config moment.now none (t.stepAt ref).remove := by
  have hremove : (t.stepAt ref).remove =
      ((s.openedStep moment args ref).report config moment args).remove :=
    (congrArg Step.remove haccepts.target :)
  have hopened : (s.openedStep moment args ref).remove = none := rfl
  rw [hremove, ← hopened]
  unfold Step.report
  split
  · exact Step.stamps_settle ..
  · exact .kept

theorem Accepts.other_stamps (haccepts : Accepts config moment args ref enabled s t)
    {other : Ref} (hlt : other < s.nextRef) (hne : other ≠ ref) :
    Stamps config moment.now (s.stepAt other).remove (t.stepAt other).remove := by
  have hcore := haccepts.other other hlt hne
  split at hcore
  · have hremove : (t.stepAt other).remove =
        ((s.stepAt other).settle (some config) moment.now args.newStatus).remove :=
      (congrArg Step.remove hcore :)
    rw [hremove]
    exact Step.stamps_settle ..
  · exact .of_eq (congrArg Step.remove hcore :)

theorem Accepts.restamps (hstored : s.Stored) (hget : s.getStep args.stepId = some ref)
    (haccepts : Accepts config moment args ref enabled s t) :
    Restamps config moment.now (.addStep args) s t := by
  intro other hleft
  by_cases htarget : other = ref
  · subst htarget
    refine .inr ⟨haccepts.target_stamps, fun _ => ?_⟩
    rw [hstored.index.step_id hget]
    exact beq_self_eq_true args.stepId
  · rcases haccepts.fresh hleft with hrow | ⟨-, -, -, hnew, hcore, -⟩
    · have hfiled := hstored.index.filed hrow
      exact .inl ⟨hfiled, haccepts.other_stamps (hstored.filed_lt hfiled) htarget⟩
    · refine .inr ⟨.of_eq (congrArg Step.remove hcore :), fun hfiled => ?_⟩
      exact absurd (hstored.filed_lt hfiled) (Nat.not_lt.mpr hnew)

theorem AddsStep.restamps {outcome : Except Raised Unit} (hstored : s.Stored)
    (hadds : AddsStep config moment args (s.receiveStep config moment args) outcome t) :
    Restamps config moment.now (.addStep args) s t := by
  have hrstored := receiveStep_stored hstored config moment args
  have hreceipt := hstored.receipt config moment args
  have hreceived : Restamps config moment.now (.addStep args)
      (s.receiveStep config moment args) t := by
    generalize s.receiveStep config moment args = received at *
    cases hadds with
    | dropped => exact restamps_of_same (fun _ h => h) fun _ => rfl
    | accepted hget _ _ haccepts => exact haccepts.restamps hrstored hget
    | @failed target error =>
        have hsame := fun other => received.stepAt_failedClaim args target other
        refine restamps_of_same (fun other hleft => ?_) fun other => (hsame other).2.2.2.1
        unfold Filed at hleft ⊢
        rwa [(hsame other).1] at hleft
  intro ref hleft
  -- only the step of the request itself is new when it is received
  have hback : (s.receiveStep config moment args).Filed ref → s.Filed ref ∨
      ¬s.Filed ref ∧ ((s.receiveStep config moment args).stepAt ref).remove = none := by
    intro hfiled
    rcases hreceipt.filed hstored hfiled with hold | ⟨hnew, hdefault⟩
    · exact .inl hold
    · refine .inr ⟨fun hold => ?_, hdefault ▸ rfl⟩
      exact absurd (hstored.filed_lt hold) (hnew ▸ lt_irrefl _)
  rcases hreceived ref hleft with ⟨hfiled, hstamps⟩ | ⟨hstamps, hadds⟩
  · rcases hback hfiled with hold | ⟨hnew, hnone⟩
    · rw [hreceipt.stepAt ref (hstored.filed_lt hold)] at hstamps
      exact .inl ⟨hold, hstamps⟩
    · rw [hnone] at hstamps
      exact .inr ⟨hstamps, fun hold => absurd hold hnew⟩
  · refine .inr ⟨hstamps, fun hold => ?_⟩
    have hsame := hreceipt.stepAt ref (hstored.filed_lt hold)
    have hkept : (s.receiveStep config moment args).Filed ref := by
      unfold Filed
      rw [hsame]
      exact hreceipt.keeps hold
    rw [← hsame]
    exact hadds hkept

end Adding

/-- What a request may do to the stamps. -/
theorem Handles.restamps {event : Event} {outcome : Except Raised Response} (hsound : s.Sound)
    (hhandles : Handles env s event outcome t) (hload : event.request ≠ .load) :
    Restamps env.config event.moment.now event.request s t := by
  have hback := fun husers ref => (hhandles.continues hsound.index husers hload).filed ref
  cases hhandles with
  | serves hserves =>
      cases hserves with
      | adds hadds => exact hadds.restamps hsound.stored
      | works _ hworks => exact hworks.restamps
      | prunes hprunes =>
          exact fun ref hleft => .inl ⟨hprunes.filed hleft, hprunes.stamps ref⟩
      | rests _ hrests =>
          exact restamps_of_same (fun ref => (hrests.filed ref).mp) hrests.remove
  | marks _ hsettles | forgives _ _ hsettles =>
      exact fun ref hleft => .inl ⟨hback rfl ref hleft, hsettles.stamps ref⟩
  | reEnables _ _ hreEnables =>
      exact fun ref hleft => .inl ⟨hback rfl ref hleft, hreEnables.stamps ref⟩
  | idle | dumps => exact restamps_of_same (fun _ h => h) fun _ => rfl
  | disables =>
      refine restamps_of_same (hback rfl) fun ref => ?_
      rw [stepAt_disableWorker hsound.index]
      split <;> rfl
  | loads => exact absurd rfl hload

end Scheduler

open Scheduler

/-! ## Runs of the scheduler -/

namespace Env

variable (env : Env) {s : Scheduler} {event : Event} {ref : Ref} {bound : Time}

/-- Once its `prune` is done, a request takes no step away. -/
theorem pruned_filed (hsound : s.Sound) (hhands : HandsOutFiledSteps env s event)
    (hprunes : env.prunes event = true) (hleft : (env.after s event).Filed ref) :
    (env.pruned s event).Filed ref := by
  obtain ⟨moment, request⟩ := event
  cases request with
  | prune => exact hleft
  | getWork args =>
      obtain ⟨outcome, hworks, -⟩ := hsound.after_getWork env moment hhands
      exact ((env.received_rests hsound moment args).filed ref).mp
        ((hworks.resembles.filed ref).mp hleft)
  | _ => cases hprunes

/-- What a request that prunes makes of a step that nobody wants. -/
theorem after_marks (hsound : s.Sound) (hhands : HandsOutFiledSteps env s event)
    (hprunes : env.prunes event = true) (hfiled : s.Filed ref)
    (hunwanted : ((s.pruneWorkers env.config event.moment.now).stepAt ref).Unwanted
      (s.pruneWorkers env.config event.moment.now).assistants) :
    ((env.after s event).stepAt ref).remove.isSome = true := by
  obtain ⟨t, hrun, -⟩ := prune_spec hsound.stored hsound.retriable env.config event.moment.now
  have hmarked := prune_marks hsound.stored hsound.retriable hrun hfiled hunwanted
  have hpruned : env.pruned s event = t :=
    (if_pos hprunes).trans (congrArg Prod.snd (exec_reply (fun _ => Response.nothing) hrun))
  rw [← hpruned] at hmarked
  obtain ⟨moment, request⟩ := event
  cases request with
  | prune => exact hmarked
  | getWork args =>
      obtain ⟨outcome, hworks, -⟩ := hsound.after_getWork env moment hhands
      rw [hworks.resembles.remove, (env.received_rests hsound moment args).stepAt]
      exact hmarked
  | _ => cases hprunes

/-- A request that prunes takes the steps away whose stamp is due. -/
theorem after_takes (hsound : s.Sound) (hhands : HandsOutFiledSteps env s event)
    (hprunes : env.prunes event = true) (hpositive : 0 < event.moment.now)
    (hdue : (s.stepAt ref).mayPrune event.moment.now = true) :
    ¬(env.after s event).Filed ref := by
  obtain ⟨t, hrun, -⟩ := prune_spec hsound.stored hsound.retriable env.config event.moment.now
  have hpruned : env.pruned s event = t :=
    (if_pos hprunes).trans (congrArg Prod.snd (exec_reply (fun _ => Response.nothing) hrun))
  have htaken := prune_takes hsound.stored hsound.retriable hrun hpositive hdue
  rw [← hpruned] at htaken
  exact fun hleft => htaken (env.pruned_filed hsound hhands hprunes hleft)

/-- What holds of every state up to a time that lies the delay in front of the bound. -/
def DatedSound (bound : Time) (s : Scheduler) : Prop := s.Sound ∧ s.StampsDated bound

theorem datedSound_after (hdelay : 0 ≤ env.config.removeDelay)
    (hlasting : Lasting (DatedSound bound) s) (hhands : HandsOutFiledSteps env s event)
    (hpositive : 0 < event.moment.now)
    (hbound : event.moment.now + env.config.removeDelay ≤ bound) :
    Lasting (DatedSound bound) (env.after s event) := by
  have hsounds : Lasting Sound s := hlasting.mono fun _ h => h.1
  refine lasting_after (fun {u v} hdated hindex hcontents => ?_) (fun h => h.1) hlasting
    hhands fun hload hdump => ?_
  · refine ⟨hdated.1.reindex hindex hcontents.heap hcontents.nextRef hcontents.steps
      hcontents.activeWorkers, fun ref hfiled => ?_⟩
    have hsame : v.stepAt ref = u.stepAt ref := by
      simp only [Scheduler.stepAt, hcontents.heap]
    rw [hsame]
    exact hdated.2 ref (hcontents.continues.filed ref hfiled)
  · obtain ⟨hsound, hdated⟩ := hlasting.1
    exact ⟨(Sound.after hsounds hhands).1.1,
      ((hsound.handles hhands).restamps hsound hload).dated hdated hpositive hdelay hbound⟩

/-- The step is gone, or its stamp is due at the given time. -/
def Doomed (now : Time) (ref : Ref) (s : Scheduler) : Prop :=
  s.Filed ref → (s.stepAt ref).mayPrune now = true

/-- A request leaves a doomed step doomed, unless it schedules the step. -/
theorem doomed_after {now : Time} (hsound : s.Sound) (hhands : HandsOutFiledSteps env s event)
    (hlt : ref < s.nextRef) (hload : event.request ≠ .load)
    (hother : event.request.addsStep (s.stepAt ref).id = false)
    (hpositive : 0 < event.moment.now) (hbound : event.moment.now ≤ now)
    (hdoomed : Doomed now ref s) : Doomed now ref (env.after s event) := by
  intro hleft
  have hfiled := (filed_after hload hlt).2.2 hleft
  have hstamps := ((hsound.handles hhands).restamps hsound hload).stamps hfiled hleft hother
  exact Step.mayPrune_of_stamps hstamps (hdoomed hfiled) hpositive hbound

/-- Along requests in front of the given time no stamp is later than one set then would be. -/
theorem datedSound_along {resources : Resources} {now : Time} {events : List Event}
    (hdelay : 0 ≤ env.config.removeDelay)
    (hhands : Along env.after (HandsOutFiledSteps env) (.initial resources) events)
    (htimes : ∀ event ∈ events, 0 < event.moment.now ∧ event.moment.now ≤ now) :
    Lasting (DatedSound (now + env.config.removeDelay)) (env.run (.initial resources) events) := by
  refine runAll_invariant env.after (fun s event => HandsOutFiledSteps env s event ∧
      0 < event.moment.now ∧ event.moment.now ≤ now)
    (Lasting (DatedSound (now + env.config.removeDelay))) ?_ ?_ (hhands.and_forall htimes)
  · rintro s event hlasting ⟨hhands, hpositive, hbound⟩
    exact env.datedSound_after hdelay hlasting hhands hpositive (Int.add_le_add_right hbound _)
  · refine ⟨⟨(initial_sound resources).1, fun ref hempty => ?_⟩, fun saved hsaved => ?_⟩
    · unfold Filed at hempty
      cases hempty
    · cases hsaved

/-- A step of the run that no request schedules stays doomed. -/
theorem doomed_along {now : Time} {events : List Event} (hlasting : Lasting Sound s)
    (hlt : ref < s.nextRef) (hdoomed : Doomed now ref s)
    (hhands : Along env.after (HandsOutFiledSteps env) s events)
    (hleaves : ∀ event ∈ events, event.request ≠ .load ∧
      event.request.addsStep (s.stepAt ref).id = false)
    (htimes : ∀ event ∈ events, 0 < event.moment.now ∧ event.moment.now ≤ now) :
    Sound (env.run s events) ∧ ref < (env.run s events).nextRef ∧
      Doomed now ref (env.run s events) := by
  induction events generalizing s with
  | nil => exact ⟨hlasting.1, hlt, hdoomed⟩
  | cons event rest ih =>
      obtain ⟨hhand, hhands⟩ := hhands
      obtain ⟨⟨hload, hother⟩, hleaves⟩ := List.forall_mem_cons.mp hleaves
      obtain ⟨⟨hpositive, hbound⟩, htimes⟩ := List.forall_mem_cons.mp htimes
      obtain ⟨hgrows, hid, -⟩ := @filed_after s env ref event hload hlt
      exact ih (Sound.after hlasting hhand).1 hgrows
        (env.doomed_after hlasting.1 hhand hlt hload hother hpositive hbound hdoomed) hhands
        (by rwa [hid]) htimes

/-- A step that is gone stays gone. -/
theorem gone_along {events : List Event} (hlt : ref < s.nextRef) (hgone : ¬s.Filed ref)
    (hload : ∀ event ∈ events, event.request ≠ .load) : ¬(env.run s events).Filed ref := by
  induction events generalizing s with
  | nil => exact hgone
  | cons event rest ih =>
      obtain ⟨hfirst, hrest⟩ := List.forall_mem_cons.mp hload
      obtain ⟨hgrows, -, hback⟩ := @filed_after s env ref event hfirst hlt
      exact ih hgrows (fun hleft => hgone (hback hleft)) hrest

theorem not_load_of_prunes (hprunes : env.prunes event = true) : event.request ≠ .load := by
  intro hload
  unfold prunes at hprunes
  rw [hload] at hprunes
  cases hprunes

/-- A step that nobody wants when a request prunes is gone once another one prunes after
`remove_delay`, unless it is scheduled in between. -/
theorem unwanted_step_leaves {resources : Resources} {front middle back : List Event}
    {first last : Event}
    (htimely : Timely (front ++ first :: (middle ++ last :: back)))
    (hpositive : ∀ event ∈ front ++ first :: (middle ++ last :: back), 0 < event.moment.now)
    (hhands : Along env.after (HandsOutFiledSteps env) (.initial resources)
      (front ++ first :: (middle ++ last :: back)))
    (hdelay : 0 ≤ env.config.removeDelay)
    (hfirst : env.prunes first = true) (hlast : env.prunes last = true)
    (hwaits : first.moment.now + env.config.removeDelay ≤ last.moment.now)
    (hfiled : (env.run (.initial resources) front).Filed ref)
    (hunwanted : (((env.run (.initial resources) front).pruneWorkers env.config
        first.moment.now).stepAt ref).Unwanted
      ((env.run (.initial resources) front).pruneWorkers env.config first.moment.now).assistants)
    (hleaves : ∀ event ∈ middle, event.request ≠ .load ∧
      event.request.addsStep ((env.run (.initial resources) front).stepAt ref).id = false)
    (hback : ∀ event ∈ back, event.request ≠ .load) :
    ¬(env.run (.initial resources) (front ++ first :: (middle ++ last :: back))).Filed ref := by
  obtain ⟨hfront, hhand, hrest⟩ := (along_append front _).mp hhands
  obtain ⟨hmiddle, hhandLast, -⟩ := (along_append middle _).mp hrest
  obtain ⟨-, hlater, hsplit⟩ := List.pairwise_append.mp htimely
  obtain ⟨-, -, hbefore⟩ := List.pairwise_append.mp (List.pairwise_cons.mp hlater).2
  obtain ⟨hfrontPositive, hlaterPositive⟩ := List.forall_mem_append.mp hpositive
  obtain ⟨hfirstPositive, hlaterPositive⟩ := List.forall_mem_cons.mp hlaterPositive
  obtain ⟨hmiddlePositive, hlastPositive⟩ := List.forall_mem_append.mp hlaterPositive
  replace hlastPositive := hlastPositive last (List.mem_cons_self ..)
  set start := env.run (.initial resources) front with hstart
  have hdated : Lasting (DatedSound (first.moment.now + env.config.removeDelay)) start :=
    env.datedSound_along hdelay hfront fun event hmem =>
      ⟨hfrontPositive event hmem, hsplit event hmem first (List.mem_cons_self ..)⟩
  have hmarked := env.datedSound_after hdelay hdated hhand hfirstPositive le_rfl
  have hdoomed : Doomed last.moment.now ref (env.after start first) := fun hleft =>
    Step.mayPrune_of_dated (env.after_marks hdated.1.1 hhand hfirst hfiled hunwanted)
      (hmarked.1.2 ref hleft) hwaits
  obtain ⟨hlt, hid, -⟩ := @filed_after start env ref first (env.not_load_of_prunes hfirst)
    (hdated.1.1.stored.filed_lt hfiled)
  obtain ⟨hsound, hlastLt, hlastDoomed⟩ := env.doomed_along (hmarked.mono fun _ h => h.1) hlt
    hdoomed hmiddle (by rwa [hid]) fun event hmem =>
      ⟨hmiddlePositive event hmem, hbefore event hmem last (List.mem_cons_self ..)⟩
  set reached := env.run (env.after start first) middle with hreached
  obtain ⟨hend, -, hreturns⟩ :=
    @filed_after reached env ref last (env.not_load_of_prunes hlast) hlastLt
  have hgone : ¬(env.after reached last).Filed ref := fun hleft =>
    env.after_takes hsound hhandLast hlast hlastPositive (hlastDoomed (hreturns hleft)) hleft
  have hrun : env.run (.initial resources) (front ++ first :: (middle ++ last :: back)) =
      env.run (env.after reached last) back := by
    unfold run
    rw [runAll_append, runAll_cons, runAll_append, runAll_cons]
    rfl
  rw [hrun]
  exact env.gone_along hend hgone hback

end Env

/-- The dependency of the second worker is the step that the first one has left behind. -/
theorem unwanted_step_leaves_markedDependency :
    ¬(defaultEnv.run (.initial ∅) (markedDependency ++ [requestAt 700 .prune])).Filed 0 :=
  @Env.unwanted_step_leaves defaultEnv 0 ∅ [requestAt 1 (schedules firstWorker "b")]
    [requestAt 650 (.addStep { worker := secondWorker, stepId := "a", deps := some ["b"] })] []
    (requestAt 100 .prune) (requestAt 700 .prune) (by decide +kernel) (by decide +kernel)
    (by decide +kernel) (by decide) rfl rfl (by decide) (by decide +kernel) (by decide +kernel)
    (by decide +kernel) (by decide)

end Trun
