import Trun.Scheduler.Sweeping

/-!
# The steps that `prune` visits

What a visit of `_prune_steps` does to its step depends on that step alone.  Of the
other steps it changes only those that run as members of the batch of a combined step
that fails.
-/

namespace Trun

open Program

namespace Step

variable (config : Config) (now : Time) (assistants : List WorkerId) (step : Step)

/-- What `fail_dead_worker_step` does to its step. -/
def failDead : Step :=
  if step.runByDead assistants then
    { ({ step with workerRunning := none } : Step).settle (some config) now .failed with
      retry := some (now + config.retryDelay) }
  else step

/-- What `re_enable` with a configuration does to its step. -/
def reEnabled : Step := (step.reEnable.settle (some config) now .failed).clearFailures

/-- The second paragraph of `update_status`. -/
def reEnableIfExpired : Step :=
  match step.status, step.schedulerDisableTime with
  | .disabled, some disabled =>
      if config.disablePersist < now - disabled then step.reEnabled config now else step
  | _, _ => step

variable {config now step} in
theorem reEnableIfExpired_of_ne (hstatus : step.status ≠ .disabled) :
    step.reEnableIfExpired config now = step := by
  unfold reEnableIfExpired
  split
  · exact absurd ‹_› hstatus
  · rfl

/-- The last paragraph of `update_status`. -/
def retryIfDue : Step :=
  if step.status = .failed ∧ 0 ≤ config.retryDelay then
    match step.retry with
    | none => step
    | some retry => if retry < now then step.settle (some config) now .pending else step
  else step

/-- What `update_status` does to its step. -/
def refreshed : Step :=
  ((step.stampUnneeded config now).reEnableIfExpired config now).retryIfDue config now

/-- What a visit does to its step. -/
def visited : Step := (step.failDead config now assistants).refreshed config now

theorem runByDead_running {assistants : List WorkerId} {step : Step}
    (hdead : step.runByDead assistants = true) :
    step.status.isRunning = true := by
  unfold runByDead at hdead
  split at hdead
  · cases hdead
  · simp only [Bool.and_eq_true] at hdead
    exact hdead.1.1

/-- A running step takes a failure. -/
theorem not_ignores_failed {step : Step} (hrunning : step.status.isRunning = true) :
    step.ignores .failed = false := by
  unfold ignores
  rcases Status.isRunning_iff.mp hrunning with h | h <;> rw [h] <;> rfl

theorem SameRun.runByDead {a b : Step} (hrun : a.SameRun b)
    (hstakeholders : b.stakeholders = a.stakeholders) (assistants : List WorkerId) :
    b.runByDead assistants = a.runByDead assistants := by
  unfold Step.runByDead
  rw [hrun.status, hrun.workerRunning, hstakeholders]

end Step

namespace Scheduler

variable {config : Config} {now : Time} {assistants : List WorkerId} {s t u : Scheduler}
variable {ref : Ref}

/-- The visit of a combined step whose owner is dead also fails the member. -/
def Drags (s : Scheduler) (assistants : List WorkerId) (combined member : Ref) : Prop :=
  (s.stepAt combined).runByDead assistants = true ∧
    (s.stepAt combined).status = .running ∧ (s.stepAt combined).batchId.isSome = true ∧
    s.Filed member ∧ (s.stepAt member).status = .batchRunning ∧
    (s.stepAt member).batchId = (s.stepAt combined).batchId

instance (s : Scheduler) (assistants : List WorkerId) (combined member : Ref) :
    Decidable (s.Drags assistants combined member) := by
  unfold Drags; infer_instance

theorem Drags.ne {member : Ref} (hdrags : s.Drags assistants ref member) : member ≠ ref := by
  rintro rfl
  have hrunning := hdrags.2.1
  rw [hdrags.2.2.2.2.1] at hrunning
  cases hrunning

/-- The objects after a visit. -/
def visitedAt (s : Scheduler) (config : Config) (now : Time) (assistants : List WorkerId)
    (ref other : Ref) : Step :=
  if other = ref then (s.stepAt ref).visited config now assistants
  else if s.Drags assistants ref other then
    ((s.stepAt other).settle (some config) now .failed).withoutBatch
  else s.stepAt other

/-- `fail_dead_worker_step`, exactly. -/
theorem failDeadWorkerStep_writes (config : Config) (now : Time) (assistants : List WorkerId)
    (hindex : s.Indexed) (hfiled : s.Filed ref) :
    Writes (failDeadWorkerStep config now assistants ref) s fun other =>
      if other = ref then (s.stepAt ref).failDead config now assistants
      else if s.Drags assistants ref other then
        ((s.stepAt other).settle (some config) now .failed).withoutBatch
      else s.stepAt other := by
  unfold failDeadWorkerStep
  by_cases hdead : (s.stepAt ref).runByDead assistants = true
  · set orphan := fun step : Step => { step with workerRunning := none } with horphan
    set s1 := s.updateStep ref orphan with hs1
    have hindex1 : s1.Indexed := hindex.updateStep rfl rfl
    have hfiled1 : ∀ other, s1.Filed other ↔ s.Filed other := fun other =>
      filed_updateStep rfl
    obtain ⟨t, hrun, htindex, htsame, htsteps⟩ :=
      setStatus_spec hindex1 ((hfiled1 ref).mpr hfiled) now .failed (some config) (by simp)
    have hown : s1.stepAt ref = orphan (s.stepAt ref) := by simp [hs1]
    have hreleases : ∀ other, other ≠ ref →
        (s1.Releases ref .failed other ↔ s.Drags assistants ref other) := by
      intro other hother
      have hsame : s1.stepAt other = s.stepAt other := by simp [hs1, hother]
      have hignores : (orphan (s.stepAt ref)).ignores .failed = false :=
        (Step.not_ignores_failed (@Step.runByDead_running assistants (s.stepAt ref) hdead) :)
      have hown' : (orphan (s.stepAt ref)).releasesBatch .failed =
          ((s.stepAt ref).status == .running && (s.stepAt ref).batchId.isSome && true) := rfl
      have hbatch : (orphan (s.stepAt ref)).batchId = (s.stepAt ref).batchId := rfl
      simp only [Releases, Drags, hown, hsame, hfiled1, hignores, hown', hbatch, hdead, true_and,
        Bool.and_true, Bool.and_eq_true, beq_iff_eq, and_assoc]
    set delay := fun step : Step => { step with retry := some (now + config.retryDelay) }
      with hdelay
    refine ⟨t.updateStep ref delay, ?_, htindex.updateStep rfl rfl,
      ((sameTables_updateStep ..).trans htsame).trans (sameTables_updateStep ..),
      fun other => ?_⟩
    · rw [exec_get_bind, if_pos hdead, exec_modify_bind]
      exact (exec_bind_ok hrun).trans (exec_modify ..)
    · rw [stepAt_updateStep, htsteps]
      by_cases hother : other = ref
      · subst hother
        simp only [if_true, settled, hown, Step.failDead, hdead, horphan, hdelay]
      · have hsame : s1.stepAt other = s.stepAt other := by simp [hs1, hother]
        simp only [hother, if_false, settled, hsame, hreleases other hother]
  · have hidle : Writes (Pure.pure ()) s s.stepAt := .pure hindex
    have hnone : ∀ other, ¬s.Drags assistants ref other := fun other h => hdead h.1
    refine ⟨s, ?_, hindex, .refl s, fun other => ?_⟩
    · rw [exec_get_bind, if_neg hdead]
      rfl
    · simp only [hnone, if_false, Step.failDead, hdead]
      split
      · rename_i hother
        rw [hother]
        rfl
      · rfl

/-- `set_status` on a step that does not run writes that step only. -/
theorem setStatus_stopped (config : Config) (now : Time) (hindex : s.Indexed)
    (hfiled : s.Filed ref) (newStatus : Status)
    (hstopped : (s.stepAt ref).status.isRunning = false) :
    Writes (setStatus now ref newStatus (some config)) s (Function.update s.stepAt ref
      ((s.stepAt ref).settle (some config) now newStatus)) := by
  obtain ⟨t, hrun, htindex, htsame, htsteps⟩ :=
    setStatus_spec hindex hfiled now newStatus (some config) (by simp)
  refine ⟨t, hrun, htindex, htsame, fun other => ?_⟩
  have hkeeps : ¬s.Releases ref newStatus other := by
    rintro ⟨-, hreleases, -⟩
    simp only [Step.releasesBatch, Bool.and_eq_true, beq_iff_eq] at hreleases
    rw [hreleases.1.1] at hstopped
    cases hstopped
  rw [htsteps, settled, if_neg hkeeps]
  by_cases hother : other = ref
  · subst hother
    simp
  · simp [hother]

theorem reEnable_writes (config : Config) (now : Time) (hindex : s.Indexed)
    (hfiled : s.Filed ref) (hdisabled : (s.stepAt ref).status = .disabled) :
    Writes (reEnable config now ref) s
      (Function.update s.stepAt ref ((s.stepAt ref).reEnabled config now)) := by
  unfold reEnable
  refine (Writes.updateStep hindex ref Step.reEnable rfl rfl).bind
    fun t htindex htsame htsteps => ?_
  have hown : t.stepAt ref = (s.stepAt ref).reEnable := by
    rw [htsteps, Function.update_self]
  have htfiled : t.Filed ref := by
    unfold Filed
    rw [hown, htsame.getStep]
    exact hfiled
  have hstatus : (t.stepAt ref).status = .disabled := by
    rw [hown]
    exact hdisabled
  refine (setStatus_stopped config now htindex htfiled .failed (by rw [hstatus]; rfl)).bind
    fun u huindex _ husteps => ?_
  obtain ⟨v, hrun, hvindex, hvsame, hvsteps⟩ :=
    Writes.updateStep huindex ref Step.clearFailures rfl rfl
  refine ⟨v, hrun, hvindex, hvsame, fun other => ?_⟩
  rw [hvsteps]
  by_cases hother : other = ref
  · subst hother
    simp [husteps, hown, Step.reEnabled]
  · simp [hother, husteps, htsteps]

theorem reEnableExpired_writes (config : Config) (now : Time) (hindex : s.Indexed)
    (hfiled : s.Filed ref) :
    Writes (reEnableExpired config now ref) s
      (Function.update s.stepAt ref ((s.stepAt ref).reEnableIfExpired config now)) := by
  have hidle : Writes (Pure.pure ()) s (Function.update s.stepAt ref (s.stepAt ref)) := by
    simpa using Writes.pure hindex
  by_cases hdisabled : (s.stepAt ref).status = .disabled
  · cases htime : (s.stepAt ref).schedulerDisableTime with
    | none =>
        simp only [Writes, reEnableExpired, exec_get_bind, Step.reEnableIfExpired, hdisabled,
          htime] at hidle ⊢
        exact hidle
    | some disabled =>
        have henable := reEnable_writes config now hindex hfiled hdisabled
        simp only [Writes, reEnableExpired, exec_get_bind, Step.reEnableIfExpired, hdisabled,
          htime] at hidle henable ⊢
        split
        · exact henable
        · exact hidle
  · rw [Step.reEnableIfExpired_of_ne hdisabled]
    simp only [Writes, reEnableExpired, exec_get_bind] at hidle ⊢
    split
    · exact absurd ‹_› hdisabled
    · exact hidle

theorem retryFailed_writes (config : Config) (now : Time) (hindex : s.Indexed)
    (hfiled : s.Filed ref)
    (hretry : (s.stepAt ref).status = .failed → (s.stepAt ref).retry.isSome = true) :
    Writes (retryFailed config now ref) s
      (Function.update s.stepAt ref ((s.stepAt ref).retryIfDue config now)) := by
  have hidle : Writes (Pure.pure ()) s (Function.update s.stepAt ref (s.stepAt ref)) := by
    simpa using Writes.pure hindex
  unfold Writes retryFailed Step.retryIfDue at *
  rw [exec_get_bind]
  by_cases hfailed : (s.stepAt ref).status = .failed ∧ 0 ≤ config.retryDelay
  · obtain ⟨retry, hretryAt⟩ := Option.isSome_iff_exists.mp (hretry hfailed.1)
    rw [if_pos hfailed, if_pos hfailed, hretryAt]
    dsimp only
    split
    · exact setStatus_stopped config now hindex hfiled .pending (by rw [hfailed.1]; rfl)
    · exact hidle
  · rw [if_neg hfailed, if_neg hfailed]
    exact hidle

theorem stampUnneeded_parts (config : Config) (now : Time) (step : Step) :
    (step.stampUnneeded config now).plan = step.plan ∧
      step.SameRun (step.stampUnneeded config now) ∧
      (step.stampUnneeded config now).retry = step.retry := by
  unfold Step.stampUnneeded
  split <;> exact ⟨rfl, ⟨rfl, rfl, rfl⟩, rfl⟩

theorem updateStatus_writes (config : Config) (now : Time) (hindex : s.Indexed)
    (hfiled : s.Filed ref)
    (hretry : (s.stepAt ref).status = .failed → (s.stepAt ref).retry.isSome = true) :
    Writes (updateStatus config now ref) s
      (Function.update s.stepAt ref ((s.stepAt ref).refreshed config now)) := by
  obtain ⟨hplan, hrun, hretry1⟩ := stampUnneeded_parts config now (s.stepAt ref)
  have hid : ((s.stepAt ref).stampUnneeded config now).id = (s.stepAt ref).id :=
    (congrArg Step.id hplan :)
  unfold updateStatus
  refine (Writes.updateStep hindex ref (fun step => step.stampUnneeded config now) hid
    hrun.status).bind fun t htindex htsame htsteps => ?_
  have hown : t.stepAt ref = (s.stepAt ref).stampUnneeded config now := by
    rw [htsteps, Function.update_self]
  have htfiled : t.Filed ref := by
    unfold Filed
    rw [hown, htsame.getStep, hid]
    exact hfiled
  refine (reEnableExpired_writes config now htindex htfiled).bind
    fun u huindex husame husteps => ?_
  have hown' : u.stepAt ref =
      ((s.stepAt ref).stampUnneeded config now).reEnableIfExpired config now := by
    rw [husteps, Function.update_self, hown]
  have hswept : (t.stepAt ref).Swept config now (u.stepAt ref) := by
    obtain ⟨v, hrun, hsweeps⟩ := reEnableExpired_spec config now [] htindex htfiled
    obtain ⟨w, hrun', -, -, hwsteps⟩ := reEnableExpired_writes config now htindex htfiled
    rw [hrun] at hrun'
    obtain rfl := (Prod.mk.inj hrun').2
    rw [husteps, ← hwsteps]
    exact hsweeps.object ref
  have hufiled : u.Filed ref := by
    unfold Filed
    rw [husame.getStep, hswept.id]
    exact htfiled
  have huretry : (u.stepAt ref).status = .failed → (u.stepAt ref).retry.isSome = true := by
    refine hswept.retry fun hfailed => ?_
    rw [hown] at hfailed ⊢
    rw [hretry1]
    exact hretry (hrun.status.symm.trans hfailed)
  obtain ⟨v, hrun, hvindex, hvsame, hvsteps⟩ :=
    retryFailed_writes config now huindex hufiled huretry
  refine ⟨v, hrun, hvindex, hvsame, fun other => ?_⟩
  rw [hvsteps]
  by_cases hother : other = ref
  · subst hother
    rw [Function.update_self, Function.update_self, hown']
    rfl
  · rw [Function.update_of_ne hother, Function.update_of_ne hother, husteps,
      Function.update_of_ne hother, htsteps, Function.update_of_ne hother]

/-! ## The loop -/

/-- The states that the loop of `_prune_steps` passes through. -/
inductive Visits (config : Config) (now : Time) (assistants : List WorkerId) :
    List Ref → Scheduler → Scheduler → Prop where
  | nil {s : Scheduler} : Visits config now assistants [] s s
  | cons {ref : Ref} {rest : List Ref} {s u t : Scheduler}
      (hsweeps : Sweeps config now assistants s u)
      (hobject : ∀ other, u.stepAt other = s.visitedAt config now assistants ref other)
      (hrest : Visits config now assistants rest u t) :
      Visits config now assistants (ref :: rest) s t

theorem visit_writes (config : Config) (now : Time) (assistants : List WorkerId)
    (hindex : s.Indexed) (hretry : s.Retriable) (hfiled : s.Filed ref) :
    ∃ t u, (failDeadWorkerStep config now assistants ref).exec s = (.ok (), t) ∧
      (updateStatus config now ref).exec t = (.ok (), u) ∧
      Sweeps config now assistants s u ∧
      ∀ other, u.stepAt other = s.visitedAt config now assistants ref other := by
  obtain ⟨t, hrun, hfail⟩ := failDeadWorkerStep_spec config now assistants hindex hfiled
  have htfiled := (hfail.filed ref).mpr hfiled
  have htretry := hfail.retriable hretry
  obtain ⟨u, hrun', hupdate⟩ :=
    updateStatus_spec config now assistants hfail.index htretry htfiled
  refine ⟨t, u, hrun, hrun', hfail.trans hupdate, fun other => ?_⟩
  have htobject : ∀ other, t.stepAt other =
      if other = ref then (s.stepAt ref).failDead config now assistants
      else if s.Drags assistants ref other then
        ((s.stepAt other).settle (some config) now .failed).withoutBatch
      else s.stepAt other := by
    obtain ⟨t', hagain, -, -, hsteps⟩ :=
      failDeadWorkerStep_writes config now assistants hindex hfiled
    rw [hrun] at hagain
    obtain rfl := (Prod.mk.inj hagain).2
    exact hsteps
  obtain ⟨u', hagain, -, -, hsteps⟩ := updateStatus_writes config now hfail.index htfiled
    (htretry ref htfiled)
  rw [hrun'] at hagain
  obtain rfl := (Prod.mk.inj hagain).2
  rw [hsteps]
  by_cases hother : other = ref
  · subst hother
    rw [Function.update_self, htobject, if_pos rfl, visitedAt, if_pos rfl]
    rfl
  · rw [Function.update_of_ne hother, htobject, if_neg hother, visitedAt, if_neg hother]

theorem Visits.swept {refs : List Ref} (hvisits : Visits config now assistants refs s t)
    (ref : Ref) : (s.stepAt ref).Swept config now (t.stepAt ref) := by
  induction hvisits with
  | nil => exact .refl _
  | cons hsweeps _ _ ih => exact (hsweeps.object ref).trans ih

theorem Visits.getStep {refs : List Ref} (hvisits : Visits config now assistants refs s t)
    (id : StepId) : t.getStep id = s.getStep id := by
  induction hvisits with
  | nil => rfl
  | cons hsweeps _ _ ih => exact ih.trans (hsweeps.same.getStep id)

/-- The stamp of the step was due at a moment of the loop. -/
def FoundDue (s t : Scheduler) (config : Config) (now : Time) (assistants : List WorkerId)
    (ref : Ref) : Prop :=
  ∃ visited, Sweeps config now assistants s visited ∧
    (visited.stepAt ref).mayPrune now = true ∧
    (visited.stepAt ref).Swept config now (t.stepAt ref)

/-- The loop cannot fail, and finds for removal only steps whose stamp is due. -/
theorem visitSteps_visits (config : Config) (now : Time) (assistants : List WorkerId)
    (hindex : s.Indexed) (hretry : s.Retriable) (refs : List Ref)
    (hfiled : ∀ ref ∈ refs, s.Filed ref) :
    ∃ t removed, (visitSteps config now assistants refs).exec s = (.ok removed, t) ∧
      Visits config now assistants refs s t ∧
      ∀ id ∈ removed, ∃ ref ∈ refs, (s.stepAt ref).id = id ∧
        s.FoundDue t config now assistants ref := by
  induction refs generalizing s with
  | nil => exact ⟨s, [], rfl, .nil, fun _ h => by cases h⟩
  | cons ref rest ih =>
      obtain ⟨t, u, hrunFail, hrunUpdate, hsweeps, hobject⟩ :=
        visit_writes config now assistants hindex hretry (hfiled ref (List.mem_cons_self ..))
      obtain ⟨v, others, hrunRest, hvisits, hfound⟩ := ih hsweeps.index
        (hsweeps.retriable hretry) fun other hother => (hsweeps.filed other).mpr
          (hfiled other (List.mem_cons_of_mem _ hother))
      refine ⟨v, if (u.stepAt ref).mayPrune now = true then (u.stepAt ref).id :: others
        else others, ?_, .cons hsweeps hobject hvisits, fun id hmem => ?_⟩
      · unfold visitSteps
        refine (exec_bind_ok hrunFail).trans ((exec_bind_ok hrunUpdate).trans ?_)
        rw [exec_get_bind]
        exact (exec_bind_ok hrunRest).trans rfl
      · have hlater : id ∈ others → ∃ other ∈ ref :: rest, (s.stepAt other).id = id ∧
            s.FoundDue v config now assistants other := by
          intro hmem
          obtain ⟨other, hother, hid, visited, hvisited, hdue, hswept⟩ := hfound id hmem
          exact ⟨other, List.mem_cons_of_mem _ hother, (hsweeps.object other).id ▸ hid,
            visited, hsweeps.trans hvisited, hdue, hswept⟩
        split at hmem
        · rename_i hdue
          rcases List.mem_cons.mp hmem with rfl | hmem
          · exact ⟨ref, List.mem_cons_self .., (hsweeps.object ref).id.symm, u, hsweeps, hdue,
              hvisits.swept ref⟩
          · exact hlater hmem
        · exact hlater hmem

/-- A step that runs in no batch changes in its own visit only. -/
theorem Visits.unvisited {refs : List Ref} (hvisits : Visits config now assistants refs s t)
    (hnot : ref ∉ refs) (hbatch : (s.stepAt ref).status ≠ .batchRunning) :
    t.stepAt ref = s.stepAt ref := by
  induction hvisits with
  | nil => rfl
  | @cons first rest s u t hsweeps hobject hrest ih =>
      rw [List.mem_cons, not_or] at hnot
      have hkept : u.stepAt ref = s.stepAt ref := by
        rw [hobject, visitedAt, if_neg hnot.1, if_neg]
        exact fun hdrags => hbatch hdrags.2.2.2.2.1
      rw [ih hnot.2 (hkept ▸ hbatch), hkept]

theorem Visits.own {refs : List Ref} (hvisits : Visits config now assistants refs s t)
    (hmem : ref ∈ refs) (hnodup : refs.Nodup)
    (hbefore : (s.stepAt ref).status ≠ .batchRunning)
    (hafter : ((s.stepAt ref).visited config now assistants).status ≠ .batchRunning) :
    t.stepAt ref = (s.stepAt ref).visited config now assistants := by
  induction hvisits with
  | nil => cases hmem
  | @cons first rest s u t hsweeps hobject hrest ih =>
      obtain ⟨hnew, hrestNodup⟩ := List.nodup_cons.mp hnodup
      by_cases href : ref = first
      · subst href
        have hown : u.stepAt ref = (s.stepAt ref).visited config now assistants := by
          rw [hobject, visitedAt, if_pos rfl]
        rw [hrest.unvisited hnew (hown ▸ hafter), hown]
      · have hkept : u.stepAt ref = s.stepAt ref := by
          rw [hobject, visitedAt, if_neg href, if_neg]
          exact fun hdrags => hbefore hdrags.2.2.2.2.1
        rw [← hkept]
        exact ih ((List.mem_cons.mp hmem).resolve_left href) hrestNodup (hkept ▸ hbefore)
          (hkept ▸ hafter)

/-! ## Runs that end -/

theorem refreshed_stopped {step : Step} (hstopped : step.status.isRunning = false) :
    (step.refreshed config now).status.isRunning = false := by
  have hstamped : (step.stampUnneeded config now).status.isRunning = false := by
    rw [(stampUnneeded_parts config now step).2.1.status]
    exact hstopped
  have henabled : ((step.stampUnneeded config now).reEnableIfExpired config
      now).status.isRunning = false := by
    unfold Step.reEnableIfExpired
    split
    · split
      · exact Step.settle_not_running _ _ _ _ rfl (by decide)
      · exact hstamped
    · exact hstamped
  unfold Step.refreshed Step.retryIfDue
  split
  · split
    · exact henabled
    · split
      · exact Step.settle_not_running _ _ _ _ rfl (by decide)
      · exact henabled
  · exact henabled

theorem visited_dead {step : Step} (hdead : step.runByDead assistants = true) :
    (step.visited config now assistants).status.isRunning = false := by
  refine refreshed_stopped ?_
  unfold Step.failDead
  rw [if_pos hdead]
  exact Step.settle_not_running _ _ _ _ rfl (by decide)

/-- A run whose owner counts as alive goes on, and is marked at most. -/
theorem visited_eq_stamp {step : Step} (hrunning : step.status.isRunning = true)
    (halive : step.runByDead assistants = false) :
    step.visited config now assistants = step.stampUnneeded config now := by
  have hfail : step.failDead config now assistants = step := by
    unfold Step.failDead
    rw [halive]
    rfl
  have hrun := (stampUnneeded_parts config now step).2.1
  have hstatus : ∀ other : Status, other.isRunning = false →
      (step.stampUnneeded config now).status ≠ other := by
    intro other hother h
    rw [← h, hrun.status, hrunning] at hother
    cases hother
  have hkept : (step.stampUnneeded config now).retryIfDue config now =
      step.stampUnneeded config now := by
    unfold Step.retryIfDue
    rw [if_neg fun h => hstatus .failed rfl h.1]
  unfold Step.visited Step.refreshed
  rw [hfail, Step.reEnableIfExpired_of_ne (hstatus .disabled rfl), hkept]

theorem visited_alive {step : Step} (hrunning : step.status.isRunning = true)
    (halive : step.runByDead assistants = false) :
    step.SameRun (step.visited config now assistants) := by
  rw [visited_eq_stamp hrunning halive]
  exact (stampUnneeded_parts config now step).2.1

/-- The loop does no more than mark a step whose run goes on. -/
theorem Visits.remove_of_running {refs : List Ref}
    (hvisits : Visits config now assistants refs s t)
    (hrunning : (t.stepAt ref).status.isRunning = true) :
    (t.stepAt ref).remove = (s.stepAt ref).remove ∨
      ((t.stepAt ref).remove = some ⟨now + config.removeDelay, false⟩ ∧
        (s.stepAt ref).remove = none) := by
  induction hvisits with
  | nil => exact .inl rfl
  | @cons first rest s u t hsweeps hobject hrest ih =>
      have hmiddle : (u.stepAt ref).status.isRunning = true :=
        ((hrest.swept ref).running hrunning).status ▸ hrunning
      have hstart : (s.stepAt ref).status.isRunning = true :=
        ((hsweeps.object ref).running hmiddle).status ▸ hmiddle
      have hvisit : (u.stepAt ref).remove = (s.stepAt ref).remove ∨
          ((u.stepAt ref).remove = some ⟨now + config.removeDelay, false⟩ ∧
            (s.stepAt ref).remove = none) := by
        rw [hobject, visitedAt] at hmiddle ⊢
        split_ifs at hmiddle ⊢ with href
        · subst href
          cases hdead : (s.stepAt ref).runByDead assistants with
          | true =>
              rw [visited_dead hdead] at hmiddle
              cases hmiddle
          | false =>
              rw [visited_eq_stamp hstart hdead]
              unfold Step.stampUnneeded
              split
              · rename_i hstamps
                exact .inr ⟨rfl, hstamps.2.1⟩
              · exact .inl rfl
        · rw [Step.withoutBatch, Step.settle_not_running _ _ _ _ rfl (by decide)] at hmiddle
          cases hmiddle
        · exact .inl rfl
      rcases ih hrunning with hsame | ⟨hstamp, hnone⟩
      · rw [hsame]
        exact hvisit
      · rcases hvisit with hold | ⟨hmarked, -⟩
        · exact .inr ⟨hstamp, hold ▸ hnone⟩
        · rw [hmarked] at hnone
          cases hnone

/-- The loop ends the runs of the visited steps whose owner is dead, and those of the
members that such steps drag along. -/
theorem Visits.stops {refs : List Ref} (hvisits : Visits config now assistants refs s t)
    (hnodup : refs.Nodup) (hrunning : (s.stepAt ref).status.isRunning = true) :
    (t.stepAt ref).status.isRunning = false ↔
      (ref ∈ refs ∧ (s.stepAt ref).runByDead assistants = true) ∨
        ∃ combined ∈ refs, s.Drags assistants combined ref := by
  induction hvisits with
  | nil => simp [hrunning]
  | @cons first rest s u t hsweeps hobject hrest ih =>
      obtain ⟨hnew, hrestNodup⟩ := List.nodup_cons.mp hnodup
      have hstays : (u.stepAt ref).status.isRunning = false →
          (t.stepAt ref).status.isRunning = false := by
        intro hstopped
        by_contra hagain
        rw [Bool.not_eq_false] at hagain
        rw [((hrest.swept ref).running hagain).status, hstopped] at hagain
        cases hagain
      by_cases hdragged : s.Drags assistants first ref
      · refine iff_of_true (hstays ?_) (.inr ⟨first, List.mem_cons_self .., hdragged⟩)
        rw [hobject, visitedAt, if_neg hdragged.ne, if_pos hdragged]
        exact Step.settle_not_running (s.stepAt ref) (some config) now .failed rfl (by decide)
      by_cases hown : ref = first ∧ (s.stepAt ref).runByDead assistants = true
      · obtain ⟨rfl, hdead⟩ := hown
        refine iff_of_true (hstays ?_) (.inl ⟨List.mem_cons_self .., hdead⟩)
        rw [hobject, visitedAt, if_pos rfl]
        exact visited_dead hdead
      -- the run outlasts this visit
      have hsame : (s.stepAt ref).SameRun (u.stepAt ref) := by
        rw [hobject, visitedAt]
        split
        · rename_i href
          subst href
          exact visited_alive hrunning (Bool.not_eq_true _ ▸ fun h => hown ⟨rfl, h⟩)
        · exact .refl _
      have hdead : (u.stepAt ref).runByDead assistants = (s.stepAt ref).runByDead assistants :=
        hsame.runByDead (hsweeps.object ref).stakeholders assistants
      have hdrags : ∀ combined ∈ rest,
          (u.Drags assistants combined ref ↔ s.Drags assistants combined ref) := by
        intro combined hmem
        have hne : combined ≠ first := fun h => hnew (h ▸ hmem)
        have hcombined : ∀ {status}, (s.stepAt combined).status = status → status ≠ .batchRunning →
            u.stepAt combined = s.stepAt combined := by
          rintro _ rfl hstatus
          rw [hobject, visitedAt, if_neg hne, if_neg]
          exact fun h => hstatus h.2.2.2.2.1
        unfold Drags
        rw [hsame.status, hsame.batchId, hsweeps.filed]
        constructor
        · rintro ⟨h1, h2, h3, h4, h5, h6⟩
          have hrun := (hsweeps.object combined).running (by rw [h2]; rfl)
          have hkept := hcombined hrun.status.symm (by rw [h2]; decide)
          rw [hkept] at h1 h2 h3 h6
          exact ⟨h1, h2, h3, h4, h5, h6⟩
        · rintro ⟨h1, h2, h3, h4, h5, h6⟩
          rw [hcombined h2 (by decide)]
          exact ⟨h1, h2, h3, h4, h5, h6⟩
      rw [ih hrestNodup (by rw [hsame.status]; exact hrunning), hdead]
      constructor
      · rintro (⟨hmem, h⟩ | ⟨combined, hmem, h⟩)
        · exact .inl ⟨List.mem_cons_of_mem _ hmem, h⟩
        · exact .inr ⟨combined, List.mem_cons_of_mem _ hmem, (hdrags combined hmem).mp h⟩
      · rintro (⟨hmem, h⟩ | ⟨combined, hmem, h⟩)
        · exact .inl ⟨(List.mem_cons.mp hmem).resolve_left fun heq => hown ⟨heq, h⟩, h⟩
        · have hrest := (List.mem_cons.mp hmem).resolve_left fun heq => hdragged (heq ▸ h)
          exact .inr ⟨combined, hrest, (hdrags combined hrest).mpr h⟩

/-! ## The whole of `prune` -/

/-- One round of `inactivate_steps` changes no step object and no other row. -/
theorem inactivateStep_ok {id : StepId} (hrun : (inactivateStep id).exec s = (.ok (), t)) :
    t.heap = s.heap ∧ ∀ other, other ≠ id → t.getStep other = s.getStep other := by
  unfold inactivateStep at hrun
  rw [exec_get_bind] at hrun
  split at hrun
  · cases hrun
  · rw [exec_modify_bind] at hrun
    split at hrun
    · cases hrun
      refine ⟨rfl, fun other hother => ?_⟩
      unfold Scheduler.getStep
      dsimp only
      rw [Dict.get?_erase, if_neg hother]
    · cases hrun

/-- `inactivate_steps` changes no step object. -/
theorem stepAt_inactivateSteps {ids : List StepId}
    (hrun : (inactivateSteps ids).exec s = (.ok (), t)) (ref : Ref) :
    t.stepAt ref = s.stepAt ref := by
  have hheap := (exec_forM_ok (fun first last : Scheduler => last.heap = first.heap)
    (fun _ _ => True) (fun _ => rfl) (fun h h' => h'.trans h) (fun _ _ _ _ h => h)
    (fun _ _ _ _ hbody => ⟨(inactivateStep_ok hbody).1, trivial⟩) hrun).1
  simp only [Scheduler.stepAt, hheap]

/-- `inactivate_steps` removes no other row. -/
theorem getStep_inactivateSteps {ids : List StepId}
    (hrun : (inactivateSteps ids).exec s = (.ok (), t)) {id : StepId} (hnot : id ∉ ids) :
    t.getStep id = s.getStep id :=
  (exec_forM_ok (fun first last : Scheduler => last.getStep id = first.getStep id)
    (fun _ _ => True) (fun _ => rfl) (fun h h' => h'.trans h) (fun _ _ _ _ h => h)
    (fun _ hmem _ _ hbody =>
      ⟨(inactivateStep_ok hbody).2 id fun heq => hnot (heq ▸ hmem), trivial⟩) hrun).1

/-- `prune` visits the steps of the table, once the silent workers are gone. -/
theorem prune_visits (hstored : s.Stored) (hretry : s.Retriable)
    (hrun : (prune config now).exec s = (.ok (), t)) :
    (s.pruneWorkers config now).activeSteps.Nodup ∧
    (∀ ref, ref ∈ (s.pruneWorkers config now).activeSteps ↔ s.Filed ref) ∧
    ∃ visited, Visits config now (s.pruneWorkers config now).assistants
        (s.pruneWorkers config now).activeSteps (s.pruneWorkers config now) visited ∧
      ∀ ref, t.stepAt ref = visited.stepAt ref := by
  have hinactivates : Inactivates (s.silentWorkers config now) s (s.pruneWorkers config now) :=
    inactivateWorkers_spec hstored _
  set kept := s.pruneWorkers config now with hkept
  have hindex := hinactivates.stored.index
  refine ⟨hindex.nodup_activeSteps,
    fun ref => hindex.mem_activeSteps.trans (hinactivates.filed ref), ?_⟩
  obtain ⟨visited, removed, hvisit, hvisits, -⟩ := visitSteps_visits config now kept.assistants
    hindex (hinactivates.retriable hretry) kept.activeSteps fun ref href =>
      hindex.mem_activeSteps.mp href
  have hrest : (inactivateSteps removed).exec visited = (.ok (), t) := by
    unfold prune pruneSteps at hrun
    rw [exec_modify_bind, exec_get_bind, ← hkept] at hrun
    exact (exec_bind_ok hvisit).symm.trans hrun
  exact ⟨visited, hvisits, stepAt_inactivateSteps hrest⟩

/-- A step leaves the state only where the loop has found its stamp due. -/
theorem prune_removes (hstored : s.Stored) (hretry : s.Retriable)
    (hrun : (prune config now).exec s = (.ok (), t)) (hfiled : s.Filed ref)
    (hgone : ¬t.Filed ref) :
    (s.pruneWorkers config now).FoundDue t config now (s.pruneWorkers config now).assistants
      ref := by
  have hinactivates : Inactivates (s.silentWorkers config now) s (s.pruneWorkers config now) :=
    inactivateWorkers_spec hstored _
  set kept := s.pruneWorkers config now with hkept
  have hindex := hinactivates.stored.index
  obtain ⟨visited, removed, hvisit, hvisits, hfound⟩ := visitSteps_visits config now
    kept.assistants hindex (hinactivates.retriable hretry) kept.activeSteps fun ref href =>
      hindex.mem_activeSteps.mp href
  have hrest : (inactivateSteps removed).exec visited = (.ok (), t) := by
    unfold prune pruneSteps at hrun
    rw [exec_modify_bind, exec_get_bind, ← hkept] at hrun
    exact (exec_bind_ok hvisit).symm.trans hrun
  have hkeptFiled := (hinactivates.filed ref).mpr hfiled
  have hsame := stepAt_inactivateSteps hrest
  by_cases hmem : (kept.stepAt ref).id ∈ removed
  · obtain ⟨other, hother, hid, hdue⟩ := hfound _ hmem
    obtain rfl := (hindex.mem_activeSteps.mp hother).inj hkeptFiled hid
    unfold FoundDue
    rw [hsame]
    exact hdue
  · refine absurd ?_ hgone
    have hswept := (hvisits.swept ref).id
    have hkept' := hvisits.getStep (kept.stepAt ref).id
    unfold Filed at hkeptFiled ⊢
    rw [hsame, hswept, getStep_inactivateSteps hrest hmem, hkept']
    exact hkeptFiled

end Scheduler

end Trun
