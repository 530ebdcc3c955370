import Trun.Scheduler.Allocation

/-!
# The index by status in every run

Handing out a removed step puts rows out of the index, but no entry out of its place: whatever
requests have been served and whatever they raised, the tables are `Keyed`.  What a request
may move are then objects that do not run, and rows.
-/

namespace Trun

open Program

namespace Scheduler

variable {s t : Scheduler}

/-! ## Moving an object -/

section Refile

variable {ref : Ref} {now : Time} {newStatus : Status}

theorem Keyed.refile (hkeyed : s.Keyed) (hmovable : s.Movable ref) :
    (s.refile now ref newStatus).Keyed where
  rows := fun id other hget => by
    obtain ⟨hlt, hid⟩ := hkeyed.rows id other hget
    refine ⟨hlt, ?_⟩
    rw [stepAt_refile]
    split <;> exact hid
  entry := fun {status id other} hentry => by
    rw [get?_bucket_refile] at hentry
    rw [stepAt_refile]
    split at hentry
    · rename_i hnew
      obtain rfl := Option.some.inj hentry
      rw [if_pos rfl]
      exact ⟨hmovable.1, hnew.2.symm, hnew.1.symm⟩
    · split at hentry
      · cases hentry
      · rename_i hpopped
        obtain ⟨hlt, hid, hstatus⟩ := hkeyed.entry hentry
        rw [if_neg fun h => hpopped ⟨by rw [← h, hstatus], by rw [← h, hid]⟩]
        exact ⟨hlt, hid, hstatus⟩
  running := fun {id other} hget hrunning => by
    rw [getStep_refile] at hget
    rw [stepAt_refile] at hrunning
    rw [Dict.contains_iff, get?_bucket_refile]
    by_cases hother : other = ref
    · rw [if_pos hother] at hrunning
      have hid := (hkeyed.rows id other hget).2
      exact ⟨ref, if_pos ⟨hrunning.symm, by rw [← hother, hid]⟩⟩
    · rw [if_neg hother] at hrunning
      obtain ⟨found, hfound⟩ := (Dict.contains_iff ..).mp (hkeyed.running hget hrunning)
      split
      · exact ⟨ref, rfl⟩
      · rw [if_neg]
        · exact ⟨found, hfound⟩
        · -- the moved object would be the row
          rintro ⟨hstatus, hid⟩
          have hfiled := hmovable.2 hstatus.symm
          rw [Filed, ← hid, hget] at hfiled
          exact hother (Option.some.inj hfiled)
  blank := fun {other} hle => by
    have hother : other ≠ ref := fun h => absurd hmovable.1 (Nat.not_lt.mpr (h ▸ hle))
    rw [stepAt_refile, if_neg hother]
    exact hkeyed.blank hle

/-- What does not get to run may be moved again, and all the others too. -/
theorem Movable.refile {other : Ref} (hmovable : s.Movable other)
    (hcalm : newStatus = .running → other ≠ ref) : (s.refile now ref newStatus).Movable other := by
  obtain ⟨hlt, hfiled⟩ := hmovable
  refine ⟨hlt, fun hrunning => ?_⟩
  rw [stepAt_refile] at hrunning
  unfold Filed
  rw [stepAt_refile, getStep_refile]
  split at hrunning
  · rename_i hother
    exact absurd hother (hcalm hrunning)
  · rename_i hother
    rw [if_neg hother]
    exact hfiled hrunning

end Refile

/-! ## The contract -/

/-- The tables are in order, the objects up to a bound have been made, and some may be moved. -/
def filing (bound : Ref) (refs : Ref → Prop) : Contract Raised Scheduler where
  inv s := s.Keyed ∧ bound ≤ s.nextRef ∧ ∀ ref, refs ref → s.Movable ref
  rel _ _ := True
  allows _ := True
  refl _ := trivial
  trans _ _ := trivial

/-- No object is to be moved any more. -/
def filed : Contract Raised Scheduler := filing 0 fun _ => False

section Contract

variable {bound : Ref} {refs : Ref → Prop}

theorem Keyed.filed (hkeyed : s.Keyed) : filed.inv s := ⟨hkeyed, Nat.zero_le _, fun _ h => h.elim⟩

theorem filing_covers {bound' : Ref} {refs' : Ref → Prop} (hbound : bound ≤ bound')
    (hrefs : ∀ ref, refs ref → refs' ref) : (filing bound' refs').Covers (filing bound refs) where
  inv := fun hinv => ⟨hinv.1, hbound.trans hinv.2.1, fun ref h => hinv.2.2 ref (hrefs ref h)⟩
  rel := fun _ => trivial
  allows := fun _ => trivial

theorem filing_covers_filed : (filing bound refs).Covers filed :=
  filing_covers (Nat.zero_le _) fun _ h => h.elim

theorem filing_lenient (bound : Ref) (refs : Ref → Prop) : Lenient (filing bound refs) where
  allows := fun _ => trivial
  inserts := fun hinv hinserts =>
    ⟨⟨hinserts.keyed hinv.1, hinv.2.1.trans hinserts.nextRef_le,
      fun ref h => hinserts.movable hinv.1 ref (hinv.2.2 ref h)⟩, trivial⟩

theorem filing_updateStep {ref : Ref} {change : Step → Step}
    (hplace : ∀ step, (change step).id = step.id ∧ (change step).status = step.status) :
    Honours (filing bound refs) (modify fun s => s.updateStep ref change) := fun _ hinv =>
  .modify ⟨hinv.1.updateStep hplace, hinv.2.1,
    fun other h => (hinv.2.2 other h).updateStep hplace⟩ trivial

/-! ## Changing a status -/

variable {ref : Ref} {now : Time} {newStatus : Status} {given : Option Config}

/-- An object may be moved if it is to wait, and any that has been made may be started. -/
theorem moveStatus_files (hlt : ref < bound) (hrefs : refs ref ↔ newStatus ≠ .running) :
    Honours (filing bound refs) (moveStatus now ref newStatus) := by
  intro s hinv
  unfold moveStatus
  refine .get_bind (.ite (fun _ => .pure _ hinv) fun hmoves => ?_)
  refine .ite (fun _ => .modify ⟨?_, hinv.2.1, fun other h => ?_⟩ trivial)
    fun _ => .throw hinv trivial
  · by_cases hrunning : newStatus = .running
    · refine hinv.1.refile ⟨hlt.trans_le hinv.2.1, fun h => ?_⟩
      exact absurd (hrunning.trans h.symm) hmoves
    · exact hinv.1.refile (hinv.2.2 ref (hrefs.mpr hrunning))
  · refine (hinv.2.2 other h).refile fun hrunning hother => ?_
    rw [hother] at h
    exact hrefs.mp h hrunning

/-- The members of a batch wait in the bucket of their own. -/
theorem releaseBatch_files {recur : Ref → Status → Option Config → SchedulerM Unit}
    (hrecur : ∀ {bound : Ref} {refs : Ref → Prop} {member : Ref}, member < bound → refs member →
      newStatus ≠ .running → Honours (filing bound refs) (recur member newStatus given)) :
    Honours (filing bound refs) (releaseBatch recur ref newStatus given) := by
  intro s hinv
  refine .get_bind ?_
  dsimp only
  split
  · rename_i batchId hreleases hbatch
    have hwaits : newStatus ≠ .running := by
      simp only [Step.releasesBatch, Bool.and_eq_true, bne_iff_ne] at hreleases
      exact hreleases.2
    have hmembers : ∀ member ∈ s.batchRunningSteps batchId, s.Movable member := by
      intro member hmember
      obtain ⟨⟨id, hget⟩, -⟩ := (mem_batchRunningSteps ..).mp hmember
      have hstatus := (hinv.1.entry hget).2.2
      exact hinv.1.movable_of_status (by rw [hstatus]; decide) (by rw [hstatus]; decide)
    set wide : Ref → Prop := fun other => refs other ∨ other ∈ s.batchRunningSteps batchId
    have hloop : Honours (filing s.nextRef wide) ((s.batchRunningSteps batchId).forM
        fun member => do
          recur member newStatus given
          modify fun s => s.updateStep member Step.withoutBatch) := by
      refine Honours.forM fun member hmember => ?_
      refine (hrecur (hmembers member hmember).1 (.inr hmember) hwaits).bind fun _ => ?_
      exact filing_updateStep fun _ => ⟨rfl, rfl⟩
    have hlast : Honours (filing bound refs)
        (modify fun s => s.updateStep ref Step.withoutBatch) :=
      filing_updateStep fun _ => ⟨rfl, rfl⟩
    have hcovers : (filing s.nextRef wide).Covers (filing bound refs) :=
      filing_covers hinv.2.1 fun _ h => .inl h
    have hstart : (filing s.nextRef wide).inv s :=
      ⟨hinv.1, le_refl _, fun other h => h.elim (hinv.2.2 other) (hmembers other)⟩
    exact (hloop s hstart).bind_covers hcovers fun _ t hinv' => hlast t (hcovers.inv hinv')
  · exact .pure _ hinv

theorem setStatusUpTo_files (depth : ℕ) {bound : Ref} {refs : Ref → Prop} {ref : Ref}
    {newStatus : Status} (hlt : ref < bound) (hrefs : refs ref ↔ newStatus ≠ .running) :
    Honours (filing bound refs) (setStatusUpTo depth now ref newStatus given) := by
  induction depth generalizing bound refs ref newStatus with
  | zero => exact honours_throw (filing_lenient ..) _
  | succ depth ih =>
      unfold setStatusUpTo setStatusBody
      refine honours_get_bind fun s => honours_ite (honours_throw (filing_lenient ..) _)
        (honours_ite (honours_pure _) ?_)
      refine applyStatus_honours (fun hplace => filing_updateStep hplace) ?_
        (fun status hstatus => moveStatus_files hlt ?_) fun _ _ _ => trivial
      · exact releaseBatch_files fun hmember href hwaits =>
          ih hmember (iff_of_true href hwaits)
      · rw [hrefs, ne_eq, ne_eq, hstatus]

theorem setStatus_files (hlt : ref < bound) (hrefs : refs ref ↔ newStatus ≠ .running) :
    Honours (filing bound refs) (setStatus now ref newStatus given) :=
  setStatusUpTo_files 2 hlt hrefs

/-- An object gets a status in which it does not run. -/
theorem setStatus_waits (hlt : ref < bound) (href : refs ref) (hwaits : newStatus ≠ .running) :
    Honours (filing bound refs) (setStatus now ref newStatus given) :=
  setStatus_files hlt (iff_of_true href hwaits)

theorem reEnable_files {config : Config} (hlt : ref < bound) (href : refs ref) :
    Honours (filing bound refs) (reEnable config now ref) :=
  reEnable_honours (fun _ => filing_updateStep fun _ => ⟨rfl, rfl⟩)
    (fun _ => filing_updateStep fun _ => ⟨rfl, rfl⟩)
    (setStatus_waits hlt href Status.noConfusion)

end Contract

/-! ## Handlers that look a row up -/

section Rows

variable {config : Config} {moment : Moment} {now : Time}

theorem addStep_files (args : AddStepArgs) : Honours filed (addStep config moment args) := by
  intro s hinv
  have hreceives : Honours filed (modify fun s => s.receiveStep config moment args) :=
    honours_change (filing_lenient ..) fun s => inserts_receiveStep s config moment args
  unfold addStep
  refine (hreceives s hinv).bind fun _ t _ hinv' => .get_bind ?_
  dsimp only
  split
  · exact .pure _ hinv'
  · rename_i ref hget
    refine .ite (fun _ => .pure _ hinv') fun _ => ?_
    have hmovable := hinv'.1.movable hget
    set refs : Ref → Prop := fun other => other = ref ∧ args.newStatus ≠ .running
    have haccept : Honours (filing t.nextRef refs) (acceptStep config moment args ref
        (t.workerAt args.worker).enabled) :=
      acceptStep_honours (filing_lenient ..)
        (setStatus_files hmovable.1 (and_iff_right rfl)) _
    exact (haccept t ⟨hinv'.1, le_refl _, fun other h => h.1 ▸ hmovable⟩).covers filing_covers_filed

theorem lookup_files (id : StepId) (allowed : Scheduler → Ref → Prop)
    [∀ s ref, Decidable (allowed s ref)] {act : Ref → SchedulerM Unit}
    (hact : ∀ {bound : Ref} {refs : Ref → Prop} {ref : Ref}, ref < bound → refs ref →
      Honours (filing bound refs) (act ref)) :
    Honours filed (do
      let s ← get
      match s.getStep id with
      | none => pure ()
      | some ref => if allowed s ref then act ref else pure ()) := by
  intro s hinv
  refine .get_bind ?_
  split
  · exact .pure _ hinv
  · rename_i ref hget
    have hmovable := hinv.1.movable hget
    refine .ite (fun _ => ?_) fun _ => .pure _ hinv
    have hown : Honours (filing s.nextRef (· = ref)) (act ref) := hact hmovable.1 rfl
    exact (hown s ⟨hinv.1, le_refl _, fun other h => h ▸ hmovable⟩).covers filing_covers_filed

end Rows

/-! ## Pruning -/

section Pruning

variable {config : Config} {now : Time}

/-- A row is taken out of the step table. -/
theorem Keyed.erase (hkeyed : s.Keyed) (id : StepId) :
    ({ s with steps := s.steps.erase id } : Scheduler).Keyed := by
  have hrow : ∀ {other ref}, (s.steps.erase id).get? other = some ref →
      s.getStep other = some ref := by
    intro other ref hget
    rw [Dict.get?_erase] at hget
    split at hget
    · cases hget
    · exact hget
  exact ⟨fun other ref hget => hkeyed.rows other ref (hrow hget), hkeyed.entry,
    fun hget hstatus => hkeyed.running (hrow hget) hstatus, hkeyed.blank⟩

/-- An id without a row is taken out of a bucket. -/
theorem Keyed.unlist (hkeyed : s.Keyed) {id : StepId} (hnone : s.getStep id = none)
    (status : Status) : ({ s with
      statusSteps := s.statusSteps.modify status ∅ (·.erase id) } : Scheduler).Keyed := by
  have hbucket : ∀ other : Status, ({ s with
      statusSteps := s.statusSteps.modify status ∅ (·.erase id) } : Scheduler).bucket other =
        if other = status then (s.bucket other).erase id else s.bucket other := by
    intro other
    simp only [bucket, Dict.getD_modify]
  refine ⟨hkeyed.rows, fun {other id' ref} hentry => ?_, fun {id' ref} hget hstatus => ?_,
    hkeyed.blank⟩
  · rw [hbucket] at hentry
    refine hkeyed.entry (?_ : (s.bucket other).get? id' = some ref)
    split at hentry
    · rw [Dict.get?_erase] at hentry
      split at hentry
      · cases hentry
      · exact hentry
    · exact hentry
  · obtain ⟨found, hfound⟩ := (Dict.contains_iff ..).mp (hkeyed.running hget hstatus)
    rw [hbucket, Dict.contains_iff]
    refine ⟨found, ?_⟩
    split
    · rw [Dict.get?_erase, if_neg fun hid => ?_]
      · exact hfound
      · rw [hid] at hget
        exact absurd (hnone.symm.trans hget) (Option.some_ne_none ref).symm
    · exact hfound

theorem inactivateSteps_files (ids : List StepId) : Honours filed (inactivateSteps ids) := by
  refine Honours.forM fun id _ s hinv => ?_
  unfold inactivateStep
  refine .get_bind ?_
  split
  · exact .throw hinv trivial
  · rename_i ref _
    set t : Scheduler := { s with steps := s.steps.erase id }
    have hkeyed : t.Keyed := hinv.1.erase id
    have hnone : t.getStep id = none := (Dict.get?_erase ..).trans (if_pos rfl)
    refine Meets.bind (.modify hkeyed.filed trivial) fun _ u hrun _ => ?_
    cases hrun
    exact .ite (fun _ => .modify (hkeyed.unlist hnone (s.stepAt ref).status).filed trivial)
      fun _ => .throw hkeyed.filed trivial

theorem prune_files : Honours filed (prune config now) := by
  unfold prune pruneSteps
  refine (honours_change (filing_lenient ..) fun s => inserts_pruneWorkers s config now).bind
    fun _ s hinv => .get_bind ?_
  have hmovable : ∀ ref ∈ s.activeSteps, s.Movable ref := fun ref href => by
    obtain ⟨id, hget⟩ := (mem_activeSteps ..).mp href
    exact hinv.1.movable hget
  have hvisit : Honours (filing s.nextRef (· ∈ s.activeSteps))
      (visitSteps config now s.assistants s.activeSteps) :=
    visitSteps_honours (filing_lenient ..) (fun _ => filing_updateStep fun _ => ⟨rfl, rfl⟩)
      (fun _ => filing_updateStep fun _ => ⟨rfl, rfl⟩) _ fun ref href _ hwaits =>
        setStatus_waits (hmovable ref href).1 href hwaits
  exact (hvisit s ⟨hinv.1, le_refl _, hmovable⟩).bind_covers filing_covers_filed
    fun removed t hinv' => inactivateSteps_files removed t hinv'.1.filed

end Pruning

/-! ## Handing out -/

section Working

variable {env : Env} {moment : Moment} {now : Time}

theorem resetOrphaned_files (worker : WorkerId) :
    Honours filed (resetOrphanedBatchRunningSteps now worker) := by
  intro s hinv
  refine .get_bind ?_
  have hmovable : ∀ ref ∈ s.orphanedSteps worker, s.Movable ref := fun ref href => by
    have hwaits := List.mem_of_mem_filter href
    obtain ⟨status, hstatus, id, hget⟩ := (mem_activeStepsByStatus ..).mp hwaits
    rw [List.mem_singleton] at hstatus
    have hplace := (hinv.1.entry hget).2.2.trans hstatus
    exact hinv.1.movable_of_status (by rw [hplace]; decide) (by rw [hplace]; decide)
  have hloop : Honours (filing s.nextRef (· ∈ s.orphanedSteps worker))
      ((s.orphanedSteps worker).forM fun ref => setStatus now ref .pending none) :=
    Honours.forM fun ref href => setStatus_waits (hmovable ref href).1 href Status.noConfusion
  exact (hloop s ⟨hinv.1, le_refl _, hmovable⟩).covers filing_covers_filed

theorem prepareWork_files (args : GetWorkArgs) : Honours filed (prepareWork now args) := by
  unfold prepareWork
  dsimp only
  refine Honours.bind (honours_change (filing_lenient ..) fun s => ?_) fun _ =>
    honours_get_bind fun t => ?_
  · split
    · exact inserts_updateWorkerAt ..
    · exact .refl s
  · split
    · exact honours_pure _
    · exact (resetOrphaned_files args.worker).bind fun _ => honours_pure _

/-- A lost step is one that has been made. -/
theorem prepareWork_lost {args : GetWorkArgs} {lost : Option Ref} (hkeyed : s.Keyed)
    (hrun : (prepareWork now args).exec s = (.ok lost, t)) {ref : Ref} (hlost : lost = some ref) :
    ref < t.nextRef := by
  have hgrows := (prepareWork_honours (growth_admits {} now) args s trivial).2.1
  rw [final, hrun] at hgrows
  refine Nat.lt_of_lt_of_le ?_ hgrows.nextRef_le
  unfold prepareWork at hrun
  rw [exec_modify_bind, exec_get_bind] at hrun
  dsimp only at hrun
  set u := if args.assistant then s.updateWorkerAt args.worker fun worker =>
    { worker with info := worker.info.update { assistant := some true } } else s with hu
  have hentry : ∀ status id, (u.bucket status).get? id = some ref → ref < s.nextRef := by
    intro status id hget
    refine (hkeyed.entry (?_ : (s.bucket status).get? id = some ref)).1
    rw [hu] at hget
    split at hget <;> exact hget
  have hsame : lost = u.lostStep args := by
    split at hrun
    · exact (Except.ok.inj (congrArg Prod.fst hrun)).symm
    · obtain ⟨_, middle, -, hlast⟩ := exec_bind_eq_ok hrun
      exact (Except.ok.inj (congrArg Prod.fst hlast)).symm
  rw [hsame] at hlost
  obtain ⟨_, -, hmem, -⟩ := lostStep_cases hlost
  obtain ⟨status, -, id, hget⟩ := (mem_activeStepsByStatus ..).mp hmem
  exact hentry status id hget

/-- What the ranked loop chose still waits, unless it is a lost step. -/
theorem handOut_files {args : GetWorkArgs} {lost : Option Ref} {pending : PendingReply}
    (hkeyed : t.Keyed) (hlost : ∀ ref, lost = some ref → ref < t.nextRef)
    (hobject : ∀ ref, t.stepAt ref = s.stepAt ref) :
    Meets filed
      (handOut env now args.worker (s.selectWork args env.config now lost) pending) t := by
  have hselected := selectWork_selected s args env.config now lost
  have hwaits : ∀ {ref}, s.schedulable ref = true → t.Movable ref := by
    intro ref hready
    simp only [schedulable, Bool.and_eq_true, beq_iff_eq] at hready
    refine hkeyed.movable_of_status ?_ ?_ <;> rw [hobject, hready.1] <;> decide
  unfold handOut
  split
  · exact .pure _ hkeyed.filed
  · rename_i best hbest
    refine .ite (fun _ => ?_) fun _ => ?_
    · set members := (s.selectWork args env.config now lost).batchedSteps
      have hmovable : ∀ ref ∈ members, t.Movable ref := fun ref href =>
        hwaits (hselected.batched ref href).1
      have hbatch : Honours (filing t.nextRef (· ∈ members)) (handOutBatch env now args.worker
          (s.selectWork args env.config now lost) best pending) :=
        handOutBatch_honours (filing_lenient ..) _ _ _ fun ref href =>
          setStatus_waits (hmovable ref href).1 href Status.noConfusion
      exact (hbatch t ⟨hkeyed, le_refl _, hmovable⟩).covers filing_covers_filed
    · have hlt : best < t.nextRef := by
        cases lost with
        | some ref =>
            have hsame := (hselected.taken ref rfl).1
            rw [hbest] at hsame
            exact hlost best (hsame ▸ rfl)
        | none => exact (hwaits (hselected.best rfl best hbest).2.1).1
      have hsingle : Honours (filing t.nextRef fun _ => False)
          (handOutStep env now args.worker best pending) :=
        handOutStep_honours (filing_lenient ..) _ _
          (setStatus_files hlt (iff_of_false id (not_not_intro rfl)))
      exact (hsingle t ⟨hkeyed, le_refl _, fun _ h => h.elim⟩).covers filing_covers_filed

theorem findWork_files (args : GetWorkArgs) : Honours filed (findWork env moment args) := by
  intro s hinv
  unfold findWork
  refine (prepareWork_files args s hinv).bind fun lost t hrun hinv' => .get_bind ?_
  have hlost : ∀ ref, lost = some ref → ref < t.nextRef := fun _ h =>
    prepareWork_lost hinv.1 hrun h
  obtain ⟨-, hgreets, -⟩ := countPending_meets moment args.worker t
  refine Meets.bind (countPending_lenient (filing_lenient ..) moment args.worker t hinv')
    fun pending u hcount hinv'' => ?_
  rw [final, hcount] at hgreets
  exact handOut_files hinv''.1 (fun ref h => (hlost ref h).trans_le hgreets.nextRef.ge)
    hgreets.stepAt

theorem getWork_files (args : GetWorkArgs) : Honours filed (getWork env moment args) := by
  have hgreets : Honours filed (modify fun s => s.updateWorker moment.now args.worker true) :=
    honours_change (filing_lenient ..) fun s => (greets_updateWorker ..).inserts
  unfold getWork receiveRequest
  refine Honours.bind ?_ fun _ => honours_get_bind fun s => honours_ite (findWork_files args)
    (honours_pure _)
  dsimp only
  exact honours_ite (prune_files.bind fun _ => hgreets) hgreets

end Working

/-! ## Runs -/

/-- Every request but those of the state file leaves the tables keyed, whatever it raises. -/
theorem serve_files (env : Env) (moment : Moment) {request : Request}
    (hfile : request ≠ .load ∧ request ≠ .dump) : Honours filed (serve env moment request) :=
  serve_keeps (filing_lenient ..) addStep_files getWork_files prune_files
    (fun id => lookup_files id _ fun hlt href => setStatus_waits hlt href Status.noConfusion)
    (fun id => lookup_files id _ fun hlt href => setStatus_waits hlt href Status.noConfusion)
    (fun id => lookup_files id _ fun hlt href => reEnable_files hlt href) hfile

theorem Indexed.keyed (hindex : s.Indexed) (hrows : s.Rows)
    (hblank : ∀ ref, s.nextRef ≤ ref → (s.stepAt ref).status = .unknown) : s.Keyed where
  rows := hrows
  entry := fun {status id ref} hentry => by
    obtain ⟨hget, hstatus⟩ := (hindex.bucket_iff ..).mp hentry
    exact ⟨(hrows id ref hget).1, (hrows id ref hget).2, hstatus⟩
  running := fun {id ref} hget hstatus =>
    (Dict.contains_iff ..).mpr ⟨ref, (hindex.bucket_iff ..).mpr ⟨hget, hstatus⟩⟩
  blank := fun {ref} hle => hblank ref hle

theorem keyed_after (env : Env) (event : Event) (hlasting : Lasting Keyed s) :
    Lasting Keyed (env.after s event) := by
  obtain ⟨moment, request⟩ := event
  by_cases hfile : request ≠ .load ∧ request ≠ .dump
  · obtain ⟨-, hgrows, -⟩ := serve_grows env moment hfile s trivial
    exact ⟨(serve_files env moment hfile s hlasting.1.filed).1.1,
      fun saved h => hlasting.2 saved (hgrows.saved ▸ h)⟩
  · rw [not_and_or, not_ne_iff, not_ne_iff] at hfile
    rcases hfile with rfl | rfl
    · have hload : Lasting Keyed s.load := by
        cases hsaved : s.saved with
        | none =>
            have hload : s.load = s := by simp only [load, hsaved]
            rw [hload]
            exact hlasting
        | some saved =>
            obtain ⟨u, hu, rfl⟩ := hlasting.2 saved hsaved
            obtain ⟨hheap, hnext, hsteps, -, hsame⟩ := load_eq hsaved
            have hrows : s.load.Rows := by
              intro id ref hget
              simp only [getStep, hsteps] at hget
              simp only [stepAt, hheap, hnext]
              exact hu.rows id ref hget
            refine ⟨(load_indexed (fun hget => (hu.rows _ _ hget).2) hsaved).keyed hrows
              fun ref hle => ?_, fun saved h => hlasting.2 saved (hsame ▸ h)⟩
            rw [hnext] at hle
            simp only [stepAt, hheap]
            exact hu.blank hle
      exact hload
    · have hdump : Lasting Keyed s.dump := by
        have hkeyed : s.dump.Keyed :=
          Keyed.of_same (s := s) rfl rfl (fun _ => ⟨rfl, rfl⟩) hlasting.1 rfl
        exact ⟨hkeyed, fun saved h => ⟨s, hlasting.1, (Option.some.inj h).symm⟩⟩
      exact hdump

/-- Every state that any requests lead to is keyed. -/
theorem run_keyed (env : Env) (resources : Resources) (events : List Event) :
    (env.run (.initial resources) events).Keyed := by
  have hinitial : Lasting Keyed (Scheduler.initial resources) :=
    ⟨⟨fun _ _ h => (by cases h), fun h => (by cases h), fun h => (by cases h), fun _ => rfl⟩,
      fun _ h => (by cases h)⟩
  refine (runAll_invariant env.after (fun _ _ => True) (Lasting Keyed)
    (fun _ event hlasting _ => keyed_after env event hlasting) hinitial ?_).1
  exact along_of_forall (fun _ _ => trivial) events

/-! ## Reports that do not fail -/

/-- The index has an entry for the id of the object under its status. -/
def Listed (s : Scheduler) (ref : Ref) : Prop :=
  (s.bucket (s.stepAt ref).status).contains (s.stepAt ref).id = true

theorem Listed.of_same {ref : Ref} (hlisted : s.Listed ref)
    (hplace : (t.stepAt ref).id = (s.stepAt ref).id ∧
      (t.stepAt ref).status = (s.stepAt ref).status)
    (hindex : t.statusSteps = s.statusSteps) : t.Listed ref := by
  unfold Listed bucket at hlisted ⊢
  rw [hplace.1, hplace.2, hindex]
  exact hlisted

/-- `get_step(step.id, setdefault=step)` files the row that it returns. -/
theorem listed_setdefaultStep {step : Step} {ref : Ref}
    (hget : (s.setdefaultStep step).getStep step.id = some ref) :
    (s.setdefaultStep step).Listed ref := by
  unfold Listed
  rw [Dict.contains_iff]
  cases hold : s.getStep step.id with
  | some found =>
      simp only [setdefaultStep, insertStep, hold] at hget ⊢
      have hsame : s.getStep step.id = some ref := hget
      obtain rfl := Option.some.inj (hold.symm.trans hsame)
      exact ⟨found, by rw [bucket_fileStep, stepAt_fileStep, if_pos rfl, Dict.get?_set, if_pos rfl]⟩
  | none =>
      rw [getStep_setdefaultStep hold, if_pos rfl] at hget
      obtain rfl := Option.some.inj hget
      rw [stepAt_setdefaultStep hold, if_pos rfl]
      exact ⟨s.nextRef, by rw [get?_bucket_setdefaultStep hold, if_pos ⟨rfl, rfl⟩]⟩

/-- The owner of a batch is listed, and so are the members, each under an id of its own, while the
owner runs. -/
def listing (owner : Ref) (members : List Ref) : Contract Raised Scheduler where
  inv s := s.Listed owner ∧ ∀ member ∈ members, (s.stepAt owner).status = .running ∧
    (s.stepAt member).status ≠ .running ∧
    (s.bucket (s.stepAt member).status).get? (s.stepAt member).id = some member ∧
    ∀ other ∈ members, (s.stepAt other).id = (s.stepAt member).id → other = member
  rel _ _ := True
  allows _ := False
  refl _ := trivial
  trans _ _ := trivial

section Listing

variable {owner : Ref} {members : List Ref} {now : Time} {newStatus : Status} {config : Config}

theorem listing_covers : (listing owner members).Covers (listing owner []) where
  inv := fun hinv => ⟨hinv.1, fun _ h => (by cases h)⟩
  rel := fun _ => trivial
  allows := fun h => h

theorem listing_covers_returning : (listing owner members).Covers returning where
  inv := fun _ => trivial
  rel := fun _ => trivial
  allows := fun h => h

theorem listing_updateStep {ref : Ref} {change : Step → Step}
    (hplace : ∀ step, (change step).id = step.id ∧ (change step).status = step.status) :
    Honours (listing owner members) (modify fun s => s.updateStep ref change) := by
  intro s hinv
  have hsame (other : Ref) :
      ((s.updateStep ref change).stepAt other).id = (s.stepAt other).id ∧
        ((s.updateStep ref change).stepAt other).status = (s.stepAt other).status :=
    places_updateStep hplace other
  refine .modify ⟨hinv.1.of_same (hsame owner) rfl, fun member hmember => ?_⟩ trivial
  obtain ⟨hrunning, hwaits, hlisted, hdistinct⟩ := hinv.2 member hmember
  rw [(hsame owner).2, (hsame member).1, (hsame member).2]
  exact ⟨hrunning, hwaits, hlisted, fun other hother hid =>
    hdistinct other hother ((hsame other).1.symm.trans hid)⟩

/-- A member that moves leaves all the others where they are. -/
theorem moveStatus_lists {member : Ref} (hmember : member ∈ members)
    (hwaits : newStatus ≠ .running) :
    Honours (listing owner members) (moveStatus now member newStatus) := by
  intro s hinv
  obtain ⟨hrunning, hwaiting, hentry, hdistinct⟩ := hinv.2 member hmember
  have hcontains : (s.bucket (s.stepAt member).status).contains (s.stepAt member).id = true :=
    (Dict.contains_iff ..).mpr ⟨member, hentry⟩
  have howner : owner ≠ member := fun h => hwaiting (h ▸ hrunning)
  unfold moveStatus
  refine .get_bind (.ite (fun _ => .pure _ hinv) fun _ => .ite (fun _ => ?_)
    fun hmissing => absurd hcontains hmissing)
  refine .modify ⟨?_, fun other hother => ?_⟩ trivial
  · have hlisted := hinv.1
    unfold Listed at hlisted ⊢
    rw [Dict.contains_iff] at hlisted ⊢
    rw [stepAt_refile, if_neg howner, get?_bucket_refile, hrunning, if_neg fun h => hwaits h.1.symm,
      if_neg fun h => hwaiting h.1.symm]
    rwa [hrunning] at hlisted
  · obtain ⟨-, hothers, hplace, hids⟩ := hinv.2 other hother
    have hid : ∀ ref, ((s.refile now member newStatus).stepAt ref).id = (s.stepAt ref).id := by
      intro ref
      rw [stepAt_refile]
      split <;> rfl
    simp only [hid]
    refine ⟨by rwa [stepAt_refile, if_neg howner], ?_, ?_, hids⟩
    · rw [stepAt_refile]
      split
      · exact hwaits
      · exact hothers
    · rw [stepAt_refile, get?_bucket_refile]
      split
      · rename_i hsame
        rw [if_pos ⟨rfl, by rw [hsame]⟩, hsame]
      · rename_i hne
        have hother' : (s.stepAt other).id ≠ (s.stepAt member).id := fun h =>
          hne (hdistinct other hother h)
        rw [if_neg fun h => hother' h.2, if_neg fun h => hother' h.2]
        exact hplace

theorem setStatusUpTo_lists (depth : ℕ) {member : Ref} (hmember : member ∈ members)
    (hwaits : newStatus ≠ .running) :
    Honours (listing owner members)
      (setStatusUpTo (depth + 1) now member newStatus (some config)) := by
  have happly : Honours (listing owner members)
      (applyStatus (setStatusUpTo depth now) now member newStatus (some config)) := by
    refine applyStatus_honours (fun hplace => listing_updateStep hplace) ?_
      (fun status hstatus => moveStatus_lists hmember fun h => hwaits (hstatus.mp h))
      fun _ h => by cases h
    intro s hinv
    have hkeeps : (s.stepAt member).releasesBatch newStatus = false := by
      simp [Step.releasesBatch, (hinv.2 member hmember).2.1]
    refine .get_bind ?_
    simp only [hkeeps]
    exact .pure _ hinv
  intro s hinv
  unfold setStatusUpTo setStatusBody
  exact .get_bind (.ite (fun h => by cases h.2) fun _ =>
    .ite (fun _ => .pure _ hinv) fun _ => happly s hinv)

/-- A running owner passes its status on to its members. -/
theorem releaseBatch_lists (hkeyed : s.Keyed) (hlisted : s.Listed owner) (depth : ℕ) :
    Meets (listing owner [])
      (releaseBatch (setStatusUpTo (depth + 1) now) owner newStatus (some config)) s := by
  have hstart : (listing owner []).inv s := ⟨hlisted, fun _ h => (by cases h)⟩
  refine .get_bind ?_
  dsimp only
  split
  · rename_i batchId hreleases hbatch
    simp only [Step.releasesBatch, Bool.and_eq_true, beq_iff_eq, bne_iff_ne] at hreleases
    obtain ⟨⟨hrunning, -⟩, hwaits⟩ := hreleases
    have hmembers : ∀ member ∈ s.batchRunningSteps batchId,
        (s.stepAt member).status = .batchRunning ∧
          (s.bucket .batchRunning).get? (s.stepAt member).id = some member := by
      intro member hmember
      obtain ⟨⟨id, hget⟩, -⟩ := (mem_batchRunningSteps ..).mp hmember
      obtain ⟨-, hid, hstatus⟩ := hkeyed.entry hget
      exact ⟨hstatus, hid ▸ hget⟩
    have hinv : (listing owner (s.batchRunningSteps batchId)).inv s := by
      refine ⟨hlisted, fun member hmember => ?_⟩
      obtain ⟨hstatus, hget⟩ := hmembers member hmember
      rw [hstatus]
      refine ⟨hrunning, Status.noConfusion, hget, fun other hother hid => ?_⟩
      have hsame := (hmembers other hother).2
      rw [hid, hget] at hsame
      exact (Option.some.inj hsame).symm
    have hloop : Honours (listing owner (s.batchRunningSteps batchId))
        ((s.batchRunningSteps batchId).forM fun member => do
          setStatusUpTo (depth + 1) now member newStatus (some config)
          modify fun s => s.updateStep member Step.withoutBatch) := by
      refine Honours.forM fun member hmember => ?_
      refine (setStatusUpTo_lists depth hmember hwaits).bind fun _ => ?_
      exact listing_updateStep fun _ => ⟨rfl, rfl⟩
    have hlast : Honours (listing owner [])
        (modify fun s => s.updateStep owner Step.withoutBatch) :=
      listing_updateStep fun _ => ⟨rfl, rfl⟩
    exact (hloop s hinv).bind_covers listing_covers fun _ t hinv' =>
      hlast t (listing_covers.inv hinv')
  · exact .pure _ hstart

/-- `set_status` returns for an object that is listed. -/
theorem setStatus_returns (hkeyed : s.Keyed) (hlisted : s.Listed owner) :
    Meets returning (setStatus now owner newStatus (some config)) s := by
  unfold setStatus setStatusUpTo setStatusBody
  refine .get_bind (.ite (fun h => by cases h.2) fun _ =>
    .ite (fun _ => .pure _ trivial) fun _ => ?_)
  unfold applyStatus
  refine .get_bind (Meets.bind (.modify trivial trivial) fun _ t hrun _ => ?_)
  have hplace : ∀ step : Step, (step.revive newStatus).id = step.id ∧
      (step.revive newStatus).status = step.status := fun _ =>
    ⟨Step.revive_id .., Step.revive_status ..⟩
  cases hrun
  refine (releaseBatch_lists (hkeyed.updateStep hplace)
    (hlisted.of_same (places_updateStep hplace owner) rfl) 0).bind_covers listing_covers_returning
      fun _ u hinv => .get_bind (.get_bind ?_)
  have haccounts : Honours (listing owner []) (modify fun s => s.updateStep owner fun step =>
      (step.account now newStatus).1) :=
    listing_updateStep fun _ => ⟨Step.account_id .., Step.account_status ..⟩
  refine (haccounts u hinv).bind_covers listing_covers_returning fun _ v hinv' => ?_
  refine Meets.bind ?_ fun _ w _ _ => Meets.bind ?_ fun _ _ _ _ => .modify trivial trivial
  · unfold moveStatus
    exact .get_bind (.ite (fun _ => .pure _ trivial) fun _ =>
      .ite (fun _ => .modify trivial trivial) fun hmissing => absurd hinv'.1 hmissing)
  · unfold stampFailure
    split
    · exact .modify trivial trivial
    · rename_i hnone
      cases hnone
    · exact .pure _ trivial

end Listing

/-- The tables are keyed, and the step that is reported is listed. -/
def reporting (ref : Ref) : Contract Raised Scheduler where
  inv s := s.Keyed ∧ s.Listed ref
  rel _ _ := True
  allows _ := False
  refl _ := trivial
  trans _ _ := trivial

section Reporting

variable {config : Config} {moment : Moment} {args : AddStepArgs} {ref : Ref}

theorem reporting_covers : (reporting ref).Covers returning where
  inv := fun _ => trivial
  rel := fun _ => trivial
  allows := fun h => h

theorem Describes.listed (hdescribes : Describes s t) (hlisted : s.Listed ref) : t.Listed ref :=
  hlisted.of_same ⟨(congrArg Step.id (hdescribes.core ref) :),
    (congrArg Step.status (hdescribes.core ref) :)⟩ hdescribes.statusSteps

/-- A report that starts no run is accepted without an exception. -/
theorem acceptStep_returns (enabled : Bool) (hkeyed : s.Keyed) (hlisted : s.Listed ref)
    (hstatus : args.status ≠ .running) :
    Meets returning (acceptStep config moment args ref enabled) s := by
  have hfill : ∀ step : Step, ((step.fillPlaceholder args).joinBatch args).id = step.id ∧
      ((step.fillPlaceholder args).joinBatch args).status = step.status := fun _ => ⟨rfl, rfl⟩
  have hdescribed : ∀ step : Step, (step.described args).id = step.id ∧
      (step.described args).status = step.status := fun _ => ⟨rfl, rfl⟩
  unfold acceptStep
  have hjoin : Meets (reporting ref) (modify fun s : Scheduler => s.updateStep ref
      fun step => (step.fillPlaceholder args).joinBatch args) s :=
    .modify ⟨hkeyed.updateStep hfill, hlisted.of_same (places_updateStep hfill ref) rfl⟩ trivial
  refine hjoin.bind_covers reporting_covers fun _ t hinv => ?_
  have hclaim : Meets (reporting ref) (claimRun moment args ref) t :=
    .get_bind (.ite (fun h => absurd h.1 hstatus) fun _ => .pure _ hinv)
  refine hclaim.bind_covers reporting_covers fun _ u hinv' => ?_
  have hdescribe : Meets (reporting ref) (modify fun s : Scheduler => s.describeStep args ref) u :=
    .modify ⟨(inserts_describeStep u args ref).keyed hinv'.1,
      (describes_describeStep u args ref).listed
        (hinv'.2.of_same (places_updateStep hdescribed ref) rfl)⟩ trivial
  refine hdescribe.bind_covers reporting_covers fun _ v hinv'' => ?_
  refine Meets.bind ?_ fun _ _ _ _ => Meets.bind (.modify trivial trivial) fun _ _ _ _ =>
    Meets.bind (.modify trivial trivial) fun _ w _ _ => ?_
  · exact .get_bind (.ite (fun _ => setStatus_returns hinv''.1 hinv''.2) fun _ => .pure _ trivial)
  · obtain ⟨x, hrun, -⟩ := updatePriority_spec w args.priority ref
    exact Meets.bind (.of_exec hrun trivial trivial fun _ h => by cases h)
      fun _ _ _ _ => .modify trivial trivial

/-- The step that a report finds is listed, unless nothing is done about it. -/
theorem listed_receiveStep (hkeyed : s.Keyed)
    (hget : (s.receiveStep config moment args).getStep args.stepId = some ref)
    (hdrops : ¬((s.receiveStep config moment args).stepAt ref).dropsClaim config moment args
      ((s.receiveStep config moment args).workerAt args.worker).enabled = true) :
    (s.receiveStep config moment args).Listed ref := by
  have hreceived := (inserts_receiveStep s config moment args).keyed hkeyed
  set greeted := s.updateWorker moment.now args.worker false
  have hreceives : s.receiveStep config moment args =
      if (greeted.workerAt args.worker).enabled then
        greeted.setdefaultStep (args.defaultStep config moment)
      else greeted := rfl
  rw [hreceives] at hget hdrops hreceived ⊢
  by_cases henabled : (greeted.workerAt args.worker).enabled = true
  · rw [if_pos henabled] at hget ⊢
    exact listed_setdefaultStep hget
  · rw [if_neg henabled] at hget hdrops hreceived ⊢
    have hrunning : (greeted.stepAt ref).status = .running := by
      by_contra hwaits
      refine hdrops ?_
      rw [Bool.not_eq_true] at henabled
      simp [Step.dropsClaim, henabled, hwaits]
    unfold Listed
    rw [(hreceived.rows args.stepId ref hget).2, hrunning]
    exact hreceived.running hget hrunning

/-- A report that starts no run returns. -/
theorem addStep_returns (config : Config) (moment : Moment) (hkeyed : s.Keyed)
    (hstatus : args.status ≠ .running) :
    ∃ t, (addStep config moment args).exec s = (.ok (), t) := by
  have hreturns : Meets returning (addStep config moment args) s := by
    unfold addStep
    refine Meets.bind (.modify trivial trivial) fun _ t hrun _ => ?_
    cases hrun
    refine .get_bind ?_
    dsimp only
    split
    · exact .pure _ trivial
    · rename_i ref hget
      refine .ite (fun _ => .pure _ trivial) fun hdrops => ?_
      exact acceptStep_returns _ ((inserts_receiveStep s config moment args).keyed hkeyed)
        (listed_receiveStep hkeyed hget hdrops) hstatus
  obtain ⟨_, t, hrun⟩ := hreturns.returns
  exact ⟨t, hrun⟩

end Reporting

end Scheduler

end Trun
