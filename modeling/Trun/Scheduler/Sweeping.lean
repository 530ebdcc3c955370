import Trun.Scheduler.Settling
import Trun.Scheduler.Storage

/-!
# What `prune` does

`Sweeps` says what the loop of `_prune_steps` may do to the steps it visits: it
keeps what they are scheduled with, starts no run, and leaves runs alone whose
owner still counts as alive.
-/

namespace Trun

open Program

/-- Status, owner and batch of a run. -/
structure Step.SameRun (before after : Step) : Prop where
  status : after.status = before.status
  workerRunning : after.workerRunning = before.workerRunning
  batchId : after.batchId = before.batchId

theorem Step.SameRun.refl (step : Step) : step.SameRun step := ⟨rfl, rfl, rfl⟩

theorem Step.SameRun.trans {a b c : Step} (hab : a.SameRun b) (hbc : b.SameRun c) :
    a.SameRun c where
  status := hbc.status.trans hab.status
  workerRunning := hbc.workerRunning.trans hab.workerRunning
  batchId := hbc.batchId.trans hab.batchId

/-- What the loop may do to one step. -/
structure Step.Swept (config : Config) (now : Time) (before after : Step) : Prop where
  plan : after.plan = before.plan
  /-- A run that goes on is the one that went on before. -/
  running : after.status.isRunning = true → before.SameRun after
  status : after.status = before.status ∨
    after.status = .failed ∨ after.status = .disabled ∨ after.status = .pending
  /-- Only a failing combined step and a step without stakeholders get a stamp. -/
  remove : after.remove = before.remove ∨ after.remove = some ⟨now, true⟩ ∨
    (after.remove = some ⟨now + config.removeDelay, false⟩ ∧ before.remove = none ∧
      before.stakeholders = ∅ ∧ after.status ≠ .running)
  /-- A step that fails waits for the retry delay. -/
  failed : after.status = .failed → (before.status = .failed ∧ after.retry = before.retry) ∨
    after.retry = some (now + config.retryDelay)
  /-- Only a step whose retry is due is put back. -/
  waits : after.status = .pending → before.status = .pending ∨
    (before.status = .failed ∧ 0 ≤ config.retryDelay ∧
      ∃ retry, before.retry = some retry ∧ retry < now)

namespace Step

variable {config : Config} {now : Time} {a b c : Step}

theorem Swept.refl (step : Step) : step.Swept config now step where
  plan := rfl
  running := fun _ => .refl step
  status := .inl rfl
  remove := .inl rfl
  failed := fun h => .inl ⟨h, rfl⟩
  waits := .inl

theorem Swept.trans (hab : a.Swept config now b) (hbc : b.Swept config now c) :
    a.Swept config now c where
  plan := hbc.plan.trans hab.plan
  running := by
    intro hrunning
    have hlast := hbc.running hrunning
    exact (hab.running (hlast.status ▸ hrunning)).trans hlast
  status := by
    rcases hbc.status with hsame | hstopped
    · rw [hsame]
      exact hab.status
    · exact .inr hstopped
  remove := by
    have hstakeholders : b.stakeholders = a.stakeholders :=
      (congrArg Step.stakeholders hab.plan :)
    rcases hbc.remove with hsame | hfailed | ⟨hstamp, hnone, hempty, hstatus⟩
    · rw [hsame]
      rcases hab.remove with h | h | ⟨hstamp, hnone, hempty, hstatus⟩
      · exact .inl h
      · exact .inr (.inl h)
      · refine .inr (.inr ⟨hstamp, hnone, hempty, fun hrunning => hstatus ?_⟩)
        have hlast := hbc.running (by rw [hrunning]; rfl)
        rw [← hlast.status, hrunning]
    · exact .inr (.inl hfailed)
    · rcases hab.remove with h | h | h
      · exact .inr (.inr ⟨hstamp, by rw [← h, hnone], by rw [← hstakeholders, hempty], hstatus⟩)
      · rw [hnone] at h
        cases h
      · rw [hnone] at h
        cases h.1
  failed := by
    intro hfailed
    rcases hbc.failed hfailed with ⟨hmiddle, hretry⟩ | hfresh
    · rw [hretry]
      exact hab.failed hmiddle
    · exact .inr hfresh
  waits := by
    intro hpending
    rcases hbc.waits hpending with hmiddle | ⟨hmiddle, hdelay, retry, hretry, hdue⟩
    · exact hab.waits hmiddle
    · rcases hab.failed hmiddle with ⟨hfirst, hsame⟩ | hfresh
      · exact .inr ⟨hfirst, hdelay, retry, hsame ▸ hretry, hdue⟩
      · rw [hfresh] at hretry
        obtain rfl : now + config.retryDelay = retry := Option.some.inj hretry
        exact absurd hdue (Int.not_lt.mpr (Int.le_add_of_nonneg_right hdelay))

theorem Swept.retry (hswept : a.Swept config now b)
    (ha : a.status = .failed → a.retry.isSome = true) (hfailed : b.status = .failed) :
    b.retry.isSome = true := by
  rcases hswept.failed hfailed with ⟨hfirst, hsame⟩ | hfresh
  · rw [hsame]
    exact ha hfirst
  · rw [hfresh]
    rfl

/-- A step that ran is not put back at once. -/
theorem Swept.not_pending (hswept : a.Swept config now b)
    (hrunning : a.status.isRunning = true) : b.status ≠ .pending := by
  intro hpending
  rcases hswept.waits hpending with h | ⟨h, -⟩ <;> rw [h] at hrunning <;> cases hrunning

theorem Swept.id (hswept : a.Swept config now b) : b.id = a.id :=
  (congrArg Step.id hswept.plan :)

theorem Swept.stakeholders (hswept : a.Swept config now b) : b.stakeholders = a.stakeholders :=
  (congrArg Step.stakeholders hswept.plan :)

/-- A step that no longer runs, but for its owner and its batch. -/
theorem swept_of_stopped (hplan : b.plan = a.plan) (hstopped : b.status.isRunning = false)
    (hstatus : b.status = a.status ∨ b.status = .failed ∨ b.status = .disabled)
    (hremove : b.remove = a.remove ∨ b.remove = some ⟨now, true⟩)
    (hfailed : b.status = .failed → (a.status = .failed ∧ b.retry = a.retry) ∨
      b.retry = some (now + config.retryDelay)) : a.Swept config now b where
  plan := hplan
  running := fun h => by rw [hstopped] at h; cases h
  status := hstatus.imp_right fun h => h.imp_right .inl
  remove := hremove.imp_right .inl
  failed := hfailed
  waits := fun h => by
    rcases hstatus with hsame | hnew | hnew
    · exact .inl (hsame.symm.trans h)
    · rw [hnew] at h
      cases h
    · rw [hnew] at h
      cases h

/-- A step that `set_status` makes fail. -/
theorem swept_settle_failed (config : Config) (now : Time) : a.Swept config now
  (a.settle (some config) now .failed) := by
  by_cases hignores : a.ignores .failed = true
  · rw [settle_of_ignores _ _ _ _ hignores]
    exact .refl a
  · have hignores' : a.ignores .failed = false := by simpa using hignores
    refine swept_of_stopped (settle_plan ..) (settle_not_running _ _ _ _ rfl (by decide)) ?_ ?_ ?_
    · rcases settle_status_cases a (some config) now .failed hignores' with h | h
      · exact .inr (.inl h)
      · exact .inr (.inr h.2)
    · exact (settle_remove ..).imp_right fun h => h.2
    · exact fun h => .inr (settle_retry_eq _ _ _ hignores' h)

/-- The same for a member that leaves its batch. -/
theorem swept_settle_withoutBatch :
    a.Swept config now (a.settle (some config) now .failed).withoutBatch := by
  have hswept := swept_settle_failed config now (a := a)
  have hnot : (a.settle (some config) now .failed).withoutBatch.status.isRunning = false :=
    settle_not_running a (some config) now .failed rfl (by decide)
  exact ⟨hswept.plan, fun h => absurd h (by rw [hnot]; exact Bool.false_ne_true), hswept.status,
    hswept.remove, hswept.failed, hswept.waits⟩

/-- A failed step whose retry is due and that `set_status` puts back. -/
theorem swept_settle_pending (hstatus : a.status = .failed) (hdelay : 0 ≤ config.retryDelay)
    {retry : Time} (hretry : a.retry = some retry) (hdue : retry < now) :
    a.Swept config now (a.settle (some config) now .pending) := by
  have hkeeps : a.releasesBatch .pending = false := by
    simp only [releasesBatch, hstatus]
    rfl
  have hplain := settle_plain a (some config) now .pending (by rw [hstatus]; decide) (by decide)
    (by decide) hkeeps
  have hchange : a.status ≠ .pending := by rw [hstatus]; decide
  have hafter : a.settle (some config) now .pending = { a with status := .pending, updated :=
    now } := by
    rw [hplain]
    unfold withStatus
    rw [if_neg (Ne.symm hchange)]
  rw [hafter]
  exact ⟨rfl, fun h => (by cases h), .inr (.inr (.inr rfl)), .inl rfl, fun h => (by cases h),
    fun _ => .inr ⟨hstatus, hdelay, retry, hretry, hdue⟩⟩

end Step

namespace Scheduler

/-- Every failed step of the table has a time for its retry. -/
def Retriable (s : Scheduler) : Prop :=
  ∀ ref, s.Filed ref → (s.stepAt ref).status = .failed → (s.stepAt ref).retry.isSome = true

theorem Greets.retriable {s t : Scheduler} (hgreets : Greets s t) (hretry : s.Retriable) :
    t.Retriable := by
  intro ref hfiled
  rw [hgreets.stepAt]
  exact hretry ref ((hgreets.filed ref).mp hfiled)

/-- What the loop of `_prune_steps` may do. -/
structure Sweeps (config : Config) (now : Time) (assistants : List WorkerId)
    (s t : Scheduler) : Prop where
  index : t.Indexed
  same : SameTables s t
  object : ∀ ref, (s.stepAt ref).Swept config now (t.stepAt ref)
  /-- Where no owner is dead, every run goes on. -/
  spared : (∀ ref, s.Filed ref → (s.stepAt ref).runByDead assistants = false) →
    ∀ ref, (s.stepAt ref).status.isRunning = true → (s.stepAt ref).SameRun (t.stepAt ref)

variable {config : Config} {now : Time} {assistants : List WorkerId} {s t u : Scheduler}

theorem Sweeps.refl (hindex : s.Indexed) : Sweeps config now assistants s s where
  index := hindex
  same := .refl s
  object := fun _ => .refl _
  spared := fun _ _ _ => .refl _

theorem Sweeps.filed (hsweeps : Sweeps config now assistants s t) (ref : Ref) :
    t.Filed ref ↔ s.Filed ref := by
  unfold Filed
  rw [hsweeps.same.getStep, (hsweeps.object ref).id]

theorem Sweeps.retriable (hsweeps : Sweeps config now assistants s t) (hretry : s.Retriable) :
    t.Retriable := fun ref hfiled =>
  (hsweeps.object ref).retry (hretry ref ((hsweeps.filed ref).mp hfiled))

theorem Sweeps.trans (hst : Sweeps config now assistants s t)
    (htu : Sweeps config now assistants t u) : Sweeps config now assistants s u where
  index := htu.index
  same := hst.same.trans htu.same
  object := fun ref => (hst.object ref).trans (htu.object ref)
  spared := by
    intro halive ref hrunning
    have hfirst := hst.spared halive ref hrunning
    have halive' : ∀ ref, t.Filed ref → (t.stepAt ref).runByDead assistants = false := by
      intro other hfiled
      by_cases hother : (t.stepAt other).status.isRunning = true
      · have hsame := (hst.object other).running hother
        have hdead := halive other ((hst.filed other).mp hfiled)
        unfold Step.runByDead at hdead ⊢
        rw [hsame.workerRunning, hsame.status, (hst.object other).stakeholders]
        exact hdead
      · unfold Step.runByDead
        split
        · rfl
        · simp [hother]
    exact hfirst.trans (htu.spared halive' ref (hfirst.status ▸ hrunning))

/-! ## The parts of a visit -/

theorem failDeadWorkerStep_spec (config : Config) (now : Time) (assistants : List WorkerId)
    (hindex : s.Indexed) {ref : Ref} (hfiled : s.Filed ref) :
    ∃ t, (failDeadWorkerStep config now assistants ref).exec s = (.ok (), t) ∧
      Sweeps config now assistants s t := by
  unfold failDeadWorkerStep
  rw [exec_get_bind]
  by_cases hdead : (s.stepAt ref).runByDead assistants = true
  · rw [if_pos hdead, exec_modify_bind]
    set orphan := fun step : Step => { step with workerRunning := none } with horphan
    set s1 := s.updateStep ref orphan with hs1
    have hindex1 : s1.Indexed := hindex.updateStep rfl rfl
    have hfiled1 : s1.Filed ref := (filed_updateStep rfl).mpr hfiled
    obtain ⟨t, hrun, htindex, htsame, htsteps⟩ :=
      setStatus_spec hindex1 hfiled1 now .failed (some config) (by simp)
    refine ⟨_, (exec_bind_ok hrun).trans (exec_modify ..), htindex.updateStep rfl rfl, ?_, ?_, ?_⟩
    · exact ((sameTables_updateStep ..).trans htsame).trans (sameTables_updateStep ..)
    · intro other
      rw [stepAt_updateStep, htsteps]
      by_cases hother : other = ref
      · subst hother
        have hown : s1.stepAt other = orphan (s.stepAt other) := by simp [hs1]
        simp only [if_true, settled, hown]
        have hswept := Step.swept_settle_failed config now (a := orphan (s.stepAt other))
        exact ⟨hswept.plan, fun h => absurd h (by
          rw [Step.settle_not_running _ _ _ _ rfl (by decide)]; exact Bool.false_ne_true),
          hswept.status, hswept.remove, fun _ => .inr rfl, hswept.waits⟩
      · have hsame : s1.stepAt other = s.stepAt other := by simp [hs1, hother]
        simp only [hother, if_false, settled, hsame]
        split
        · exact Step.swept_settle_withoutBatch
        · exact .refl _
    · intro halive
      rw [halive ref hfiled] at hdead
      cases hdead
  · rw [if_neg hdead]
    exact ⟨s, rfl, .refl hindex⟩

theorem stampUnneeded_spec (config : Config) (now : Time) (assistants : List WorkerId)
    (hindex : s.Indexed) (ref : Ref) :
    Sweeps config now assistants s
      (s.updateStep ref fun step => step.stampUnneeded config now) := by
  have hparts : ∀ step : Step, (step.stampUnneeded config now).plan = step.plan ∧
      step.SameRun (step.stampUnneeded config now) := by
    intro step
    unfold Step.stampUnneeded
    split <;> exact ⟨rfl, rfl, rfl, rfl⟩
  have hid : ((s.stepAt ref).stampUnneeded config now).id = (s.stepAt ref).id :=
    (congrArg Step.id (hparts _).1 :)
  refine ⟨hindex.updateStep hid (hparts _).2.status, sameTables_updateStep .., ?_, ?_⟩
  · intro other
    rw [stepAt_updateStep]
    split
    · have hsame := (hparts (s.stepAt other)).2.status
      refine ⟨(hparts _).1, fun _ => (hparts _).2, .inl hsame, ?_, fun h => ?_, fun h => ?_⟩
      · unfold Step.stampUnneeded
        split
        · rename_i hstamp
          exact .inr (.inr ⟨rfl, hstamp.2.1, hstamp.1, hstamp.2.2⟩)
        · exact .inl rfl
      · refine .inl ⟨hsame.symm.trans h, ?_⟩
        unfold Step.stampUnneeded
        split <;> rfl
      · exact .inl (hsame.symm.trans h)
    · exact .refl _
  · intro _ other _
    rw [stepAt_updateStep]
    split
    · exact (hparts _).2
    · exact .refl _

/-- `set_status` on a step that does not run. -/
theorem setStatus_sweeps (config : Config) (now : Time) (assistants : List WorkerId)
    (hindex : s.Indexed) {ref : Ref} (hfiled : s.Filed ref)
    (newStatus : Status)
    (hswept : (s.stepAt ref).Swept config now
      ((s.stepAt ref).settle (some config) now newStatus))
    (hstopped : (s.stepAt ref).status.isRunning = false) :
    ∃ t, (setStatus now ref newStatus (some config)).exec s = (.ok (), t) ∧
      Sweeps config now assistants s t ∧
      t.stepAt ref = (s.stepAt ref).settle (some config) now newStatus := by
  obtain ⟨t, hrun, htindex, htsame, htsteps⟩ :=
    setStatus_spec hindex hfiled now newStatus (some config) (by simp)
  have hkeeps : ∀ other, ¬s.Releases ref newStatus other := by
    rintro other ⟨-, hreleases, -⟩
    simp only [Step.releasesBatch, Bool.and_eq_true, beq_iff_eq] at hreleases
    rw [hreleases.1.1] at hstopped
    cases hstopped
  have hobject : ∀ other, t.stepAt other =
      if other = ref then (s.stepAt ref).settle (some config) now newStatus
      else s.stepAt other := by
    intro other
    rw [htsteps]
    simp only [settled, hkeeps, if_false]
  refine ⟨t, hrun, ⟨htindex, htsame, ?_, ?_⟩, by rw [hobject, if_pos rfl]⟩
  · intro other
    rw [hobject]
    split
    · rename_i hother
      rw [hother]
      exact hswept
    · exact .refl _
  · intro _ other hrunning
    have hother : other ≠ ref := by
      rintro rfl
      rw [hstopped] at hrunning
      cases hrunning
    rw [hobject, if_neg hother]
    exact .refl _

/-- A write of the failure record of a step that does not run. -/
theorem sweeps_updateStep (hindex : s.Indexed) {ref : Ref} {change : Step → Step}
    (hswept : (s.stepAt ref).Swept config now (change (s.stepAt ref)))
    (hstatus : (change (s.stepAt ref)).status = (s.stepAt ref).status)
    (hstopped : (s.stepAt ref).status.isRunning = false) :
    Sweeps config now assistants s (s.updateStep ref change) := by
  refine ⟨hindex.updateStep hswept.id hstatus, sameTables_updateStep .., ?_, ?_⟩
  · intro other
    rw [stepAt_updateStep]
    split
    · rename_i hother
      rw [hother]
      exact hswept
    · exact .refl _
  · intro _ other hrunning
    have hother : other ≠ ref := by
      rintro rfl
      rw [hstopped] at hrunning
      cases hrunning
    rw [stepAt_updateStep, if_neg hother]
    exact .refl _

/-- `re_enable` on a disabled step. -/
theorem reEnable_sweeps (config : Config) (now : Time) (assistants : List WorkerId)
    (hindex : s.Indexed) {ref : Ref} (hfiled : s.Filed ref)
    (hdisabled : (s.stepAt ref).status = .disabled) :
    ∃ t, (reEnable config now ref).exec s = (.ok (), t) ∧ Sweeps config now assistants s t := by
  have hclear : Sweeps config now assistants s (s.updateStep ref Step.reEnable) := by
    refine sweeps_updateStep hindex ?_ rfl (by rw [hdisabled]; rfl)
    refine Step.swept_of_stopped rfl ?_ (.inl rfl) (.inl rfl) fun h => .inl ⟨h, rfl⟩
    rw [show ((s.stepAt ref).reEnable).status = (s.stepAt ref).status from rfl, hdisabled]
    rfl
  have hstopped : ((s.updateStep ref Step.reEnable).stepAt ref).status.isRunning = false := by
    rw [stepAt_updateStep, if_pos rfl,
      show ((s.stepAt ref).reEnable).status = (s.stepAt ref).status from rfl, hdisabled]
    rfl
  obtain ⟨t, hrun, hsweeps, hstep⟩ := setStatus_sweeps config now assistants hclear.index
    ((hclear.filed ref).mpr hfiled) .failed (Step.swept_settle_failed _ _) hstopped
  have hstopped' : (t.stepAt ref).status.isRunning = false := by
    rw [hstep]
    exact Step.settle_not_running _ _ _ _ rfl (by decide)
  have hforget : Sweeps config now assistants t (t.updateStep ref Step.clearFailures) :=
    sweeps_updateStep hsweeps.index
      (Step.swept_of_stopped rfl hstopped' (.inl rfl) (.inl rfl) fun h => .inl ⟨h, rfl⟩) rfl
      hstopped'
  refine ⟨_, ?_, (hclear.trans hsweeps).trans hforget⟩
  unfold reEnable
  rw [exec_modify_bind]
  exact (exec_bind_ok hrun).trans (exec_modify ..)

theorem reEnableExpired_spec (config : Config) (now : Time) (assistants : List WorkerId)
    (hindex : s.Indexed) {ref : Ref} (hfiled : s.Filed ref) :
    ∃ t, (reEnableExpired config now ref).exec s = (.ok (), t) ∧
      Sweeps config now assistants s t := by
  have hidle : ∃ t, (pure () : SchedulerM Unit).exec s = (.ok (), t) ∧
      Sweeps config now assistants s t := ⟨s, rfl, .refl hindex⟩
  unfold reEnableExpired
  rw [exec_get_bind]
  split
  · rename_i hdisabled _
    split
    · exact reEnable_sweeps _ _ _ hindex hfiled hdisabled
    · exact hidle
  · exact hidle

theorem retryFailed_spec (config : Config) (now : Time) (assistants : List WorkerId)
    (hindex : s.Indexed) (hretry : s.Retriable) {ref : Ref}
    (hfiled : s.Filed ref) :
    ∃ t, (retryFailed config now ref).exec s = (.ok (), t) ∧
      Sweeps config now assistants s t := by
  have hidle : ∃ t, (pure () : SchedulerM Unit).exec s = (.ok (), t) ∧
      Sweeps config now assistants s t := ⟨s, rfl, .refl hindex⟩
  unfold retryFailed
  rw [exec_get_bind]
  split
  · rename_i hcondition
    obtain ⟨retry, hretryAt⟩ := Option.isSome_iff_exists.mp (hretry ref hfiled hcondition.1)
    rw [hretryAt]
    dsimp only
    split
    · rename_i hdue
      obtain ⟨t, hrun, hsweeps, -⟩ := setStatus_sweeps config now assistants hindex hfiled .pending
        (Step.swept_settle_pending hcondition.1 hcondition.2 hretryAt hdue)
          (by rw [hcondition.1]; rfl)
      exact ⟨t, hrun, hsweeps⟩
    · exact hidle
  · exact hidle

theorem updateStatus_spec (config : Config) (now : Time) (assistants : List WorkerId)
    (hindex : s.Indexed) (hretry : s.Retriable) {ref : Ref}
    (hfiled : s.Filed ref) :
    ∃ t, (updateStatus config now ref).exec s = (.ok (), t) ∧
      Sweeps config now assistants s t := by
  have hstamp := stampUnneeded_spec config now assistants hindex ref
  obtain ⟨t, hrun, hsweeps⟩ :=
    reEnableExpired_spec config now assistants hstamp.index ((hstamp.filed ref).mpr hfiled)
  have hboth := hstamp.trans hsweeps
  obtain ⟨u, hrun', hsweeps'⟩ := retryFailed_spec config now assistants hboth.index
    (hboth.retriable hretry) ((hboth.filed ref).mpr hfiled)
  refine ⟨u, ?_, hboth.trans hsweeps'⟩
  unfold updateStatus
  rw [exec_modify_bind]
  exact (exec_bind_ok hrun).trans hrun'

/-- The loop cannot fail, and finds for removal only steps whose stamp is due. -/
theorem visitSteps_spec (config : Config) (now : Time) (assistants : List WorkerId)
    (hindex : s.Indexed) (hretry : s.Retriable) (refs : List Ref)
    (hfiled : ∀ ref ∈ refs, s.Filed ref) :
    ∃ t removed, (visitSteps config now assistants refs).exec s = (.ok removed, t) ∧
      Sweeps config now assistants s t ∧
      removed.Sublist (refs.map fun ref => (s.stepAt ref).id) ∧
      ∀ id ∈ removed, ∃ ref ∈ refs, (s.stepAt ref).id = id ∧
        ∃ u, Sweeps config now assistants s u ∧ (u.stepAt ref).mayPrune now = true := by
  induction refs generalizing s with
  | nil => exact ⟨s, [], rfl, .refl hindex, List.Sublist.slnil, fun _ h => by cases h⟩
  | cons ref rest ih =>
      have hown := hfiled ref (List.mem_cons_self ..)
      obtain ⟨t, hrunFail, hfail⟩ := failDeadWorkerStep_spec config now assistants hindex hown
      obtain ⟨u, hrunUpdate, hupdate⟩ := updateStatus_spec config now assistants hfail.index
        (hfail.retriable hretry) ((hfail.filed ref).mpr hown)
      have hvisit := hfail.trans hupdate
      obtain ⟨v, others, hrunRest, hrest, hsub, hfound⟩ := ih hvisit.index
        (hvisit.retriable hretry) fun other hother =>
          (hvisit.filed other).mpr (hfiled other (List.mem_cons_of_mem _ hother))
      simp only [(hvisit.object _).id] at hsub hfound
      have hfound' : ∀ id ∈ others, ∃ other ∈ ref :: rest, (s.stepAt other).id = id ∧
          ∃ w, Sweeps config now assistants s w ∧ (w.stepAt other).mayPrune now = true := by
        intro id hmem
        obtain ⟨other, hother, hid, w, hsweeps, hdue⟩ := hfound id hmem
        exact ⟨other, List.mem_cons_of_mem _ hother, hid, w, hvisit.trans hsweeps, hdue⟩
      refine ⟨v, if (u.stepAt ref).mayPrune now = true then (u.stepAt ref).id :: others
        else others, ?_, hvisit.trans hrest, ?_, ?_⟩
      · unfold visitSteps
        refine (exec_bind_ok hrunFail).trans ((exec_bind_ok hrunUpdate).trans ?_)
        rw [exec_get_bind]
        exact (exec_bind_ok hrunRest).trans rfl
      · rw [List.map_cons]
        split
        · rw [(hvisit.object ref).id]
          exact hsub.cons_cons _
        · exact hsub.cons _
      · intro id hmem
        split at hmem
        · rename_i hdue
          rcases List.mem_cons.mp hmem with rfl | hmem
          · exact ⟨ref, List.mem_cons_self .., (hvisit.object ref).id.symm, u, hvisit, hdue⟩
          · exact hfound' id hmem
        · exact hfound' id hmem

/-! ## Leaving the state -/

/-- `inactivate_steps` removes the rows of the given ids. -/
structure Drops (ids : List StepId) (s t : Scheduler) : Prop where
  stored : t.Stored
  getStep : ∀ id, t.getStep id = if id ∈ ids then none else s.getStep id
  stepAt : ∀ ref, t.stepAt ref = s.stepAt ref
  nextRef : t.nextRef = s.nextRef
  surroundings : SameSurroundings s t

theorem inactivateStep_spec (hstored : s.Stored) {id : StepId} {ref : Ref}
    (hget : s.getStep id = some ref) :
    ∃ t, (inactivateStep id).exec s = (.ok (), t) ∧ Drops [id] s t := by
  have hid := hstored.index.step_id hget
  have hbucket : ((s.bucket (s.stepAt ref).status).contains id) = true := by
    rw [Dict.contains_iff]
    exact ⟨ref, (hstored.index.bucket_iff _ _ _).mpr ⟨hget, rfl⟩⟩
  set t : Scheduler := { s with
    steps := s.steps.erase id
    statusSteps := s.statusSteps.modify (s.stepAt ref).status ∅ (·.erase id) } with ht
  have hget' : ∀ other, t.getStep other = if other ∈ [id] then none else s.getStep other := by
    intro other
    simp only [ht, Scheduler.getStep, Dict.get?_erase, List.mem_singleton]
  have hbuckets : ∀ status other, (t.bucket status).get? other =
      if status = (s.stepAt ref).status ∧ other = id then none
      else (s.bucket status).get? other := by
    intro status other
    simp only [ht, bucket, Dict.getD_modify]
    by_cases hstatus : status = (s.stepAt ref).status
    · simp [hstatus]
    · simp [hstatus]
  refine ⟨t, ?_, ⟨⟨?_, ?_⟩, ?_⟩, hget', fun _ => rfl, rfl,
    ⟨rfl, rfl, rfl, rfl, rfl⟩⟩
  · have hrow : s.steps.get? id = some ref := hget
    unfold inactivateStep
    rw [exec_get_bind]
    simp only [hrow, exec_modify_bind]
    rw [if_pos hbucket]
    rfl
  · intro other target hrow
    rw [hget'] at hrow
    split_ifs at hrow
    exact hstored.index.step_id hrow
  · intro status other target
    simp only [hbuckets, hget', List.mem_singleton]
    have hiff := hstored.index.bucket_iff status other target
    by_cases hother : other = id
    · subst hother
      by_cases hstatus : status = (s.stepAt ref).status
      · simp [hstatus]
      · have hnone : (s.bucket status).get? other ≠ some target := by
          intro h
          obtain ⟨hrow, hown⟩ := hiff.mp h
          rw [hget] at hrow
          obtain rfl := Option.some.inj hrow
          exact hstatus hown.symm
        simp [hstatus, hnone]
    · simp only [hother, and_false, if_false]
      exact hiff
  · intro other target hrow
    rw [hget'] at hrow
    split_ifs at hrow
    exact hstored.allocated hrow

theorem inactivateSteps_spec (hstored : s.Stored) {ids : List StepId} (hnodup : ids.Nodup)
    (hpresent : ∀ id ∈ ids, ∃ ref, s.getStep id = some ref) :
    ∃ t, (inactivateSteps ids).exec s = (.ok (), t) ∧ Drops ids s t := by
  induction ids generalizing s with
  | nil => exact ⟨s, rfl, hstored, fun id => by simp, fun _ => rfl, rfl, .refl s⟩
  | cons id rest ih =>
      obtain ⟨hnew, hrest⟩ := List.nodup_cons.mp hnodup
      obtain ⟨ref, hget⟩ := hpresent id (List.mem_cons_self ..)
      obtain ⟨t, hrun, hdrop⟩ := inactivateStep_spec hstored hget
      have hpresent' : ∀ other ∈ rest, ∃ ref, t.getStep other = some ref := by
        intro other hother
        have hne : other ∉ [id] := fun h => hnew (List.mem_singleton.mp h ▸ hother)
        rw [hdrop.getStep, if_neg hne]
        exact hpresent other (List.mem_cons_of_mem _ hother)
      obtain ⟨u, hrun', hdrops⟩ := ih hdrop.stored hrest hpresent'
      refine ⟨u, (exec_bind_ok hrun).trans hrun', hdrops.stored, fun other => ?_, fun other => ?_,
        hdrops.nextRef.trans hdrop.nextRef, hdrop.surroundings.trans hdrops.surroundings⟩
      · rw [hdrops.getStep, hdrop.getStep]
        by_cases hother : other = id <;> by_cases hmem : other ∈ rest <;> simp [hother, hmem]
      · rw [hdrops.stepAt, hdrop.stepAt]

/-! ## The whole of `prune` -/

/-- The workers `_prune_workers` finds silent. -/
def silentWorkers (s : Scheduler) (config : Config) (now : Time) : List WorkerId :=
  (s.activeWorkers.values.filter fun worker => worker.prune config now).map Worker.id

structure Inactivates (workers : List WorkerId) (s t : Scheduler) : Prop where
  stored : t.Stored
  steps : t.steps = s.steps
  nextRef : t.nextRef = s.nextRef
  worker : ∀ id, t.activeWorkers.get? id =
    if id ∈ workers then none else s.activeWorkers.get? id
  object : ∀ ref, t.stepAt ref =
    if ref ∈ s.activeSteps then (s.stepAt ref).withoutWorkers workers true else s.stepAt ref
  stepBatchers : t.stepBatchers = s.stepBatchers
  resources : t.resources = s.resources
  paused : t.paused = s.paused
  saved : t.saved = s.saved

theorem inactivateWorkers_spec (hstored : s.Stored) (workers : List WorkerId) :
    Inactivates workers s (s.inactivateWorkers workers) := by
  set s1 : Scheduler := { s with activeWorkers := workers.foldl Dict.erase s.activeWorkers }
    with hs1
  have hstored1 : s1.Stored := hstored.congr rfl rfl rfl (fun _ => rfl) fun _ => rfl
  obtain ⟨hsame, -⟩ := sameTables_removeWorkersFromSteps s1 workers true
  refine ⟨hstored1.removeWorkersFromSteps workers true, hsame.steps, hsame.nextRef, ?_, ?_,
    hsame.stepBatchers, hsame.resources, hsame.paused, hsame.saved⟩
  · intro id
    have hworkers : (s.inactivateWorkers workers).activeWorkers = s1.activeWorkers :=
      hsame.activeWorkers
    rw [hworkers, hs1]
    exact Dict.get?_foldl_erase ..
  · exact stepAt_removeWorkersFromSteps hstored1.index workers true

theorem Inactivates.getStep {workers : List WorkerId} (hinactivates : Inactivates workers s t)
    (id : StepId) : t.getStep id = s.getStep id := by
  simp only [Scheduler.getStep, hinactivates.steps]

theorem Inactivates.plan {workers : List WorkerId} (hinactivates : Inactivates workers s t)
    (ref : Ref) :
    ∃ step : Step, (t.stepAt ref) = { s.stepAt ref with
      stakeholders := step.stakeholders, workers := step.workers } := by
  rw [hinactivates.object]
  split
  · exact ⟨(s.stepAt ref).withoutWorkers workers true, rfl⟩
  · exact ⟨s.stepAt ref, rfl⟩

theorem Inactivates.filed {workers : List WorkerId} (hinactivates : Inactivates workers s t)
    (ref : Ref) : t.Filed ref ↔ s.Filed ref := by
  obtain ⟨step, hstep⟩ := hinactivates.plan ref
  unfold Filed
  rw [hinactivates.getStep, hstep]

theorem Inactivates.retriable {workers : List WorkerId} (hinactivates : Inactivates workers s t)
    (hretry : s.Retriable) : t.Retriable := by
  intro ref hfiled
  obtain ⟨step, hstep⟩ := hinactivates.plan ref
  rw [hstep]
  exact hretry ref ((hinactivates.filed ref).mp hfiled)

/-- What `prune` does: silent workers go, the loop visits the steps, and steps
whose stamp was due when they were visited leave the state. -/
structure Prunes (config : Config) (now : Time) (s t : Scheduler) : Prop where
  inactivates : Inactivates (s.silentWorkers config now) s (s.pruneWorkers config now)
  outcome : ∃ swept removed,
    Sweeps config now (s.pruneWorkers config now).assistants (s.pruneWorkers config now) swept ∧
    Drops removed swept t ∧
    ∀ id ∈ removed, ∃ ref, s.getStep id = some ref ∧ ∃ visited,
      Sweeps config now (s.pruneWorkers config now).assistants (s.pruneWorkers config now)
        visited ∧ (visited.stepAt ref).mayPrune now = true

theorem prune_spec (hstored : s.Stored) (hretry : s.Retriable) (config : Config) (now : Time) :
    ∃ t, (prune config now).exec s = (.ok (), t) ∧ Prunes config now s t := by
  set s1 := s.pruneWorkers config now with hs1
  have hinactivates : Inactivates (s.silentWorkers config now) s s1 :=
    inactivateWorkers_spec hstored _
  have hindex1 := hinactivates.stored.index
  obtain ⟨t, removed, hvisit, hsweeps, hsub, hfound⟩ := visitSteps_spec config now s1.assistants
    hindex1 (hinactivates.retriable hretry) s1.activeSteps fun ref href =>
      hindex1.mem_activeSteps.mp href
  have hnodup : removed.Nodup := by
    refine hsub.nodup ?_
    refine (List.nodup_map_iff_inj_on hindex1.nodup_activeSteps).mpr ?_
    intro left hleft right hright hid
    exact (hindex1.mem_activeSteps.mp hleft).inj (hindex1.mem_activeSteps.mp hright) hid
  have hrow : ∀ id ∈ removed, ∃ ref, s1.getStep id = some ref ∧ ∃ visited,
      Sweeps config now s1.assistants s1 visited ∧
        (visited.stepAt ref).mayPrune now = true := by
    intro id hid
    obtain ⟨ref, href, rfl, hdue⟩ := hfound id hid
    exact ⟨ref, hindex1.mem_activeSteps.mp href, hdue⟩
  have htstored : t.Stored := hinactivates.stored.of_same hsweeps.index hsweeps.same
  obtain ⟨u, hdrop, hdrops⟩ := inactivateSteps_spec htstored hnodup fun id hid => by
    obtain ⟨ref, hget, -⟩ := hrow id hid
    exact ⟨ref, by rw [hsweeps.same.getStep]; exact hget⟩
  refine ⟨u, ?_, hinactivates, t, removed, hsweeps, hdrops, fun id hid => ?_⟩
  · unfold prune pruneSteps
    rw [exec_modify_bind, exec_get_bind]
    exact (exec_bind_ok hvisit).trans hdrop
  · obtain ⟨ref, hget, hdue⟩ := hrow id hid
    exact ⟨ref, by rw [← hinactivates.getStep]; exact hget, hdue⟩

theorem Prunes.stored (hprunes : Prunes config now s t) : t.Stored := by
  obtain ⟨swept, removed, -, hdrops, -⟩ := hprunes.outcome
  exact hdrops.stored

/-- What `prune` leaves in the table was there before. -/
theorem Prunes.getStep (hprunes : Prunes config now s t) {id : StepId} {ref : Ref}
    (hget : t.getStep id = some ref) : s.getStep id = some ref := by
  obtain ⟨swept, removed, hsweeps, hdrops, -⟩ := hprunes.outcome
  rw [hdrops.getStep] at hget
  split_ifs at hget
  rwa [hsweeps.same.getStep, hprunes.inactivates.getStep] at hget

/-- The loop acts on the objects as the removal of the silent workers left them. -/
theorem Prunes.object (hprunes : Prunes config now s t) (ref : Ref) :
    ((s.pruneWorkers config now).stepAt ref).Swept config now (t.stepAt ref) := by
  obtain ⟨swept, removed, hsweeps, hdrops, -⟩ := hprunes.outcome
  rw [hdrops.stepAt]
  exact hsweeps.object ref

theorem Prunes.id (hprunes : Prunes config now s t) (ref : Ref) :
    (t.stepAt ref).id = (s.stepAt ref).id := by
  obtain ⟨step, hstep⟩ := hprunes.inactivates.plan ref
  rw [(hprunes.object ref).id, hstep]

theorem Prunes.filed (hprunes : Prunes config now s t) {ref : Ref} (hfiled : t.Filed ref) :
    s.Filed ref := by
  unfold Filed at hfiled ⊢
  rw [← hprunes.id]
  exact hprunes.getStep hfiled

theorem Prunes.retriable (hprunes : Prunes config now s t) (hretry : s.Retriable) :
    t.Retriable := by
  intro ref hfiled
  refine (hprunes.object ref).retry ?_
  exact hprunes.inactivates.retriable hretry ref
    ((hprunes.inactivates.filed ref).mpr (hprunes.filed hfiled))

end Scheduler

end Trun
