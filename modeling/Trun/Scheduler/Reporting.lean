import Trun.Scheduler.Ownership

/-!
# Progress reports

A running step reports its progress through `StepStatusReporter`.  Message and
percentage have requests of their own; the tracking URL goes through `add_step`
with most arguments left out, and some of them are then taken for given.
-/

namespace Trun

open Program

/-- The calls of `StepStatusReporter`. -/
inductive Progress where
  | trackingUrl (url : Option String)
  | statusMessage (message : Option String)
  | progressPercentage (amount : Option Int)
  deriving DecidableEq

def trackingArgs (worker : WorkerId) (id : StepId) (url : Option String) : AddStepArgs :=
  { worker := worker, stepId := id, status := .running, trackingUrl := url }

/-- The request of a call for a step that runs on the worker. -/
def Progress.request (progress : Progress) (worker : WorkerId) (id : StepId) : Request :=
  match progress with
  | .trackingUrl url => .addStep (trackingArgs worker id url)
  | .statusMessage message => .setStepStatusMessage id message
  | .progressPercentage amount => .setStepProgressPercentage id amount

/-- What a progress report is to leave alone. -/
structure Step.SameTerms (before after : Step) : Prop where
  status : after.status = before.status
  workerRunning : after.workerRunning = before.workerRunning
  deps : after.deps = before.deps
  resources : after.resources = before.resources
  resourcesRunning : after.resourcesRunning = before.resourcesRunning
  priority : after.priority = before.priority
  retryPolicy : after.retryPolicy = before.retryPolicy
  acceptsMessages : after.acceptsMessages = before.acceptsMessages
  family : after.family = before.family
  params : after.params = before.params
  batchable : after.batchable = before.batchable

def Step.withProgress (step progress : Step) : Step :=
  { step with
    trackingUrl := progress.trackingUrl
    statusMessage := progress.statusMessage
    progressPercentage := progress.progressPercentage }

/-- What `update_tracking_url` writes on the step before it holds the dependencies. -/
def Step.tracked (step : Step) (worker : WorkerId) (id : StepId) (url : Option String) : Step :=
  { step.fillPlaceholder (trackingArgs worker id url) with
    acceptsMessages := false
    trackingUrl := url <|> step.trackingUrl
    remove := none
    resources := ∅
    resourcesShared := false }

theorem Step.tracked_terms (step : Step) (worker : WorkerId) (id : StepId)
    (url : Option String) :
    (step.tracked worker id url).family = step.family ∧
      (step.tracked worker id url).params = step.params := by
  constructor
  · unfold tracked fillPlaceholder
    dsimp only [trackingArgs]
    split
    · rename_i h
      exact h.symm
    · rfl
  · unfold tracked fillPlaceholder
    dsimp only [trackingArgs]
    split
    · rename_i h
      exact (Dict.eq_empty_of_isEmpty h).symm
    · rfl

namespace Scheduler

variable {s t : Scheduler} {ref : Ref}

/-- The running members of the batch of a step. -/
def batchMembers (s : Scheduler) (ref : Ref) : List Ref :=
  match (s.stepAt ref).batchId with
  | none => []
  | some batchId => s.batchRunningSteps batchId

/-- Only the progress of the step and of its batch differs. -/
structure ProgressOnly (ref : Ref) (s t : Scheduler) : Prop where
  rows : ∀ id, t.getStep id = s.getStep id
  own : (s.stepAt ref).SameTerms (t.stepAt ref)
  member : ∀ id other, s.getStep id = some other → other ≠ ref → other ∈ s.batchMembers ref →
    t.stepAt other = (s.stepAt other).withProgress (t.stepAt other)
  other : ∀ id other, s.getStep id = some other → other ≠ ref → other ∉ s.batchMembers ref →
    t.stepAt other = s.stepAt other

/-- The step has the terms that a call with a tracking URL takes for given. -/
def TracksInPlace (s : Scheduler) (config : Config) (ref : Ref) (worker : WorkerId) : Prop :=
  (s.stepAt ref).acceptsMessages = false ∧ (s.stepAt ref).resources = ∅ ∧
    (s.stepAt ref).retryPolicy = config.generateRetryPolicy {} ∧ 0 ≤ (s.stepAt ref).priority ∧
    (∀ dep ∈ (s.stepAt ref).deps.elems, ∀ target ∈ s.getStep dep,
      (s.stepAt ref).priority ≤ (s.stepAt target).priority) ∧
    ((s.workerAt worker).enabled = true → ∀ dep ∈ (s.stepAt ref).deps.elems,
      ∃ target ∈ s.getStep dep, target = ref ∨ worker ∈ (s.stepAt target).stakeholders)

instance (s : Scheduler) (config : Config) (ref : Ref) (worker : WorkerId) :
    Decidable (s.TracksInPlace config ref worker) := by
  unfold TracksInPlace; infer_instance

/-- The condition under which a report only changes the progress. -/
def ReportsInPlace (s : Scheduler) (config : Config) (ref : Ref) (worker : WorkerId) :
    Progress → Prop
  | .trackingUrl _ => s.TracksInPlace config ref worker
  | .statusMessage _ | .progressPercentage _ => True

/-! ## Writing to a batch -/

/-- A loop that writes the same twice where an object is listed twice. -/
theorem stepAt_foldl_updateStep_idem (change : Step → Step)
    (hidem : ∀ step, change (change step) = change step) (refs : List Ref) (s : Scheduler)
    (other : Ref) :
    (refs.foldl (fun current ref => current.updateStep ref change) s).stepAt other =
      if other ∈ refs then change (s.stepAt other) else s.stepAt other := by
  rw [stepAt_foldl_updateStep]
  by_cases hmem : other ∈ refs
  · obtain ⟨count, hcount⟩ :=
      Nat.exists_eq_succ_of_ne_zero (List.count_pos_iff.mpr hmem).ne'
    rw [if_pos hmem, hcount, Function.iterate_succ_apply, Function.iterate_fixed (hidem _)]
  · rw [if_neg hmem, List.count_eq_zero_of_not_mem hmem, Function.iterate_zero_apply]

theorem batchRunningSteps_congr (hbucket : t.bucket .batchRunning = s.bucket .batchRunning)
    (hbatch : ∀ ref, (t.stepAt ref).batchId = (s.stepAt ref).batchId) (batchId : BatchId) :
    t.batchRunningSteps batchId = s.batchRunningSteps batchId := by
  simp only [batchRunningSteps, activeStepsByStatus, List.flatMap_cons, List.flatMap_nil,
    List.append_nil, hbucket, hbatch]

theorem batchMembers_congr (hbucket : t.bucket .batchRunning = s.bucket .batchRunning)
    (hbatch : ∀ ref, (t.stepAt ref).batchId = (s.stepAt ref).batchId) (ref : Ref) :
    t.batchMembers ref = s.batchMembers ref := by
  simp only [batchMembers, hbatch, batchRunningSteps_congr hbucket hbatch]

theorem stepAt_updateWithBatch (change : Step → Step)
    (hidem : ∀ step, change (change step) = change step)
    (hbatch : ∀ step, (change step).batchId = step.batchId) (s : Scheduler) (ref other : Ref) :
    (s.updateWithBatch ref change).stepAt other =
      if other = ref ∨ other ∈ s.batchMembers ref then change (s.stepAt other)
      else s.stepAt other := by
  have hids : ∀ other, ((s.updateStep ref change).stepAt other).batchId =
      (s.stepAt other).batchId := by
    intro other
    rw [stepAt_updateStep]
    split
    · exact hbatch _
    · rfl
  unfold updateWithBatch batchMembers
  dsimp only
  rw [hids]
  cases (s.stepAt ref).batchId with
  | none => simp
  | some batchId =>
      dsimp only
      rw [batchRunningSteps_congr (bucket_updateStep ..) hids,
        stepAt_foldl_updateStep_idem change hidem, stepAt_updateStep]
      by_cases hmember : other ∈ s.batchRunningSteps batchId <;> by_cases hother : other = ref <;>
        simp [hmember, hother, hidem]

/-- Reports with a request of their own. -/
theorem progressOnly_reportToBatch {id : StepId} {change : Step → Step}
    (hget : s.getStep id = some ref) (hrunning : (s.stepAt ref).status = .running)
    (hidem : ∀ step, change (change step) = change step)
    (hprogress : ∀ step, change step = step.withProgress (change step)) :
    ProgressOnly ref s (s.reportToBatch id change) := by
  have hbatch : ∀ step, (change step).batchId = step.batchId := fun step => by
    rw [hprogress]
    rfl
  have hreport : s.reportToBatch id change = s.updateWithBatch ref change := by
    simp only [reportToBatch, hget, hrunning, if_true]
  have hcore : ∀ step, (change step).core = step.core := fun step => by
    rw [hprogress]
    rfl
  have hsame : SameTables s (s.updateWithBatch ref change) :=
    (describes_updateWithBatch hcore fun step => by rw [hprogress]; rfl).same
  rw [hreport]
  have hobject := stepAt_updateWithBatch change hidem hbatch s ref
  refine ⟨hsame.getStep, ?_, fun id other _ hne hmember => ?_, fun id other _ hne hmember => ?_⟩
  · rw [hobject, if_pos (.inl rfl), hprogress]
    exact ⟨rfl, rfl, rfl, rfl, rfl, rfl, rfl, rfl, rfl, rfl, rfl⟩
  · rw [hobject, if_pos (.inr hmember)]
    exact hprogress _
  · rw [hobject, if_neg fun h => h.elim hne hmember]

/-! ## The tracking URL -/

section Tracking

variable {config : Config} {moment : Moment} {worker : WorkerId} {id : StepId}
  {url : Option String}

/-- The objects once the call has declared dependencies and resources. -/
def trackedObjects (s : Scheduler) (ref : Ref) (worker : WorkerId) (id : StepId)
    (url : Option String) (other : Ref) : Step :=
  if other = ref then (s.stepAt ref).tracked worker id url
  else if url ≠ none ∧ other ∈ s.batchMembers ref then { s.stepAt other with trackingUrl := url }
  else s.stepAt other

/-- A program that changes nothing. -/
theorem exec_of_idling {program : SchedulerM Unit} (hidle : Meets (idling s) program s) :
    ∃ t, program.exec s = (.ok (), t) ∧ SameObjects s t := by
  obtain ⟨hsame, -, hallowed⟩ := hidle
  rcases hrun : program.exec s with ⟨error | value, t⟩
  · exact (hallowed error (congrArg Prod.fst hrun)).elim
  · have hfinal : program.final s = t := congrArg Prod.snd hrun
    exact ⟨t, rfl, hfinal ▸ hsame⟩

/-- The descriptions that the call writes. -/
theorem stepAt_describeStep_tracking (worker : WorkerId) (id : StepId) (url : Option String)
    (hrunning : (s.stepAt ref).status = .running) (other : Ref) :
    (s.describeStep (trackingArgs worker id url) ref).stepAt other =
      if other = ref then
        { s.stepAt ref with
          acceptsMessages := false, trackingUrl := url <|> (s.stepAt ref).trackingUrl
          remove := none }
      else if url ≠ none ∧ other ∈ s.batchMembers ref then
        { s.stepAt other with trackingUrl := url }
      else s.stepAt other := by
  set accepted := s.updateStep ref fun step =>
    { step with
      acceptsMessages := ((trackingArgs worker id url).acceptsMessages.getD step.acceptsMessages) }
    with haccepted
  have hstatus : (accepted.stepAt ref).status = .running := by
    rw [haccepted, stepAt_updateStep, if_pos rfl]
    exact hrunning
  have hids : ∀ other, (accepted.stepAt other).batchId = (s.stepAt other).batchId := by
    intro other
    rw [haccepted, stepAt_updateStep]
    split <;> rfl
  have hmembers : accepted.batchMembers ref = s.batchMembers ref :=
    batchMembers_congr (bucket_updateStep ..) hids ref
  have hcondition : ((trackingArgs worker id url).trackingUrl ≠ none ∨
      (accepted.stepAt ref).status ≠ .running) ↔ url ≠ none := by
    rw [hstatus]
    simp [trackingArgs]
  have hexpl : ¬(trackingArgs worker id url).expl ≠ none := by simp [trackingArgs]
  unfold describeStep
  dsimp only
  rw [← haccepted, if_neg hexpl, stepAt_updateStep]
  by_cases hurl : url = none
  · subst hurl
    rw [if_neg fun h => hcondition.mp h rfl, haccepted, stepAt_updateStep]
    by_cases hother : other = ref
    · subst hother
      simp only [if_true]
      rfl
    · simp [hother]
  · have htrack : ∀ other, (accepted.updateWithBatch ref fun step =>
        { step with trackingUrl := (trackingArgs worker id url).trackingUrl }).stepAt other =
          if other = ref ∨ other ∈ s.batchMembers ref then
            { accepted.stepAt other with trackingUrl := url }
          else accepted.stepAt other := by
      intro other
      have hwrite := stepAt_updateWithBatch (fun step => { step with trackingUrl := url })
        (fun _ => rfl) (fun _ => rfl) accepted ref other
      rw [hmembers] at hwrite
      exact hwrite
    rw [if_pos (hcondition.mpr hurl), htrack, haccepted, stepAt_updateStep]
    obtain ⟨link, rfl⟩ := Option.ne_none_iff_exists'.mp hurl
    by_cases hother : other = ref
    · subst hother
      simp only [if_true, true_or]
      rfl
    · by_cases hmember : other ∈ s.batchMembers ref <;> simp [hother, hmember]

/-- A call for a running step leaves the table alone, and the running batch members. -/
theorem tables_receiveStep_of_get (config : Config) (moment : Moment) (args : AddStepArgs)
    (hget : s.getStep args.stepId = some ref) (hrunning : (s.stepAt ref).status = .running) :
    (∀ id, (s.receiveStep config moment args).getStep id = s.getStep id) ∧
      s.nextRef ≤ (s.receiveStep config moment args).nextRef ∧
      (s.receiveStep config moment args).bucket .batchRunning = s.bucket .batchRunning := by
  have hgreets := greets_updateWorker s moment.now args.worker false
  set greeted := s.updateWorker moment.now args.worker false with hgreeted
  have hgreetedBucket : greeted.bucket .batchRunning = s.bucket .batchRunning := by
    simp only [bucket, hgreets.statusSteps]
  have hrow : greeted.getStep (args.defaultStep config moment).id = some ref :=
    (hgreets.getStep _).trans hget
  have hfile : greeted.setdefaultStep (args.defaultStep config moment) = greeted.fileStep ref := by
    simp only [setdefaultStep, insertStep, hrow]
  refine ⟨?_, (inserts_receiveStep s config moment args).nextRef_le, ?_⟩ <;> unfold receiveStep <;>
    dsimp only <;> rw [← hgreeted, hfile] <;> split
  · exact hgreets.getStep
  · exact hgreets.getStep
  · rw [← hgreetedBucket, bucket, fileStep, hgreets.stepAt, hrunning, Dict.getD_modify,
      if_neg (by decide)]
    rfl
  · exact hgreetedBucket

/-- `add_step` for a tracking URL, up to the holding of the dependencies. -/
theorem trackUrl_exec (config : Config) (moment : Moment) (url : Option String)
    (hget : s.getStep id = some ref) (hrunning : (s.stepAt ref).status = .running)
    (howner : (s.stepAt ref).workerRunning = some worker) :
    ∃ declared raised : Scheduler,
      (∀ other, declared.stepAt other = s.trackedObjects ref worker id url other) ∧
      (∀ id, declared.getStep id = s.getStep id) ∧ s.nextRef ≤ declared.nextRef ∧
      (updatePriority 0 ref).exec (declared.addStakeholders config moment
        (trackingArgs worker id url) ref (s.workerAt worker).enabled) = (.ok (), raised) ∧
      Raises (declared.addStakeholders config moment (trackingArgs worker id url) ref
        (s.workerAt worker).enabled) raised ∧
      (addStep config moment (trackingArgs worker id url)).exec s = (.ok (),
        raised.registerWorker config moment (trackingArgs worker id url) ref
          (s.workerAt worker).enabled) := by
  set args := trackingArgs worker id url with hargs
  obtain ⟨hrow, hobject, henabled⟩ := receiveStep_of_get config moment args hget
  obtain ⟨hrows, hnext, hbucket⟩ := tables_receiveStep_of_get config moment args hget hrunning
  set received := s.receiveStep config moment args with hreceived
  have hjoinedStep : ∀ other, (received.joinStep args ref).stepAt other =
      if other = ref then (s.stepAt ref).fillPlaceholder args else s.stepAt other := by
    intro other
    rw [joinStep, stepAt_updateStep, hobject]
    split
    · rename_i hother
      rw [hother]
      rfl
    · rfl
  have hjoinedBatch : ∀ other, ((received.joinStep args ref).stepAt other).batchId =
      (s.stepAt other).batchId := by
    intro other
    rw [hjoinedStep]
    split
    · rename_i hother
      rw [hother]
      rfl
    · rfl
  have hmembers : (received.joinStep args ref).batchMembers ref = s.batchMembers ref :=
    batchMembers_congr ((bucket_updateStep ..).trans hbucket) hjoinedBatch ref
  set joined := received.joinStep args ref with hjoined
  have hjoinedRef : joined.stepAt ref = (s.stepAt ref).fillPlaceholder args := by
    rw [hjoinedStep, if_pos rfl]
  have hclaim : (claimRun moment args ref).exec joined = (.ok (), joined) := by
    unfold claimRun
    rw [exec_get_bind, if_neg]
    · rfl
    · rintro ⟨-, h⟩
      rw [hjoinedRef] at h
      exact absurd (howner.symm.trans h) (by simp)
  have hjoinedRunning : (joined.stepAt ref).status = .running := by
    rw [hjoinedRef]
    exact hrunning
  have hdescribed := stepAt_describeStep_tracking worker id url hjoinedRunning
  have hopened : SameTables received (joined.describeStep args ref) :=
    (SameTables.trans (sameTables_updateStep ..) (sameTables_updateStep ..)).trans
      (describes_describeStep joined args ref).same
  set described := joined.describeStep args ref with hdescribedState
  have hdescribedRef : (described.stepAt ref).status = .running ∧
      (described.stepAt ref).workerRunning = some worker := by
    rw [hdescribed, if_pos rfl, hjoinedRef]
    exact ⟨hrunning, howner⟩
  obtain ⟨reported, hreport, hsame⟩ : ∃ reported,
      (reportStatus config moment args ref).exec described = (.ok (), reported) ∧
        SameObjects described reported := by
    have haccepts : (described.stepAt ref).acceptsReport args = true := by
      have hclaims : ((described.stepAt ref).workerRunning == some args.worker) = true := by
        rw [hdescribedRef.2]
        exact beq_self_eq_true _
      simp only [Step.acceptsReport, hclaims, Bool.and_true, Bool.or_eq_true]
      exact .inl (.inr rfl)
    have hidle := setStatus_idles args.newStatus (by rw [hdescribedRef.1]; rfl)
      (.inl hdescribedRef.1.symm) moment.now config
    obtain ⟨reported, hrun, hsame⟩ := exec_of_idling hidle
    exact ⟨reported, by rw [reportStatus, exec_get_bind, if_pos haccepts, hrun], hsame⟩
  obtain ⟨raised, hraised, hraises, -⟩ := updatePriority_spec
    ((reported.updateStep ref fun step => step.declare moment args).addStakeholders config moment
      args ref (s.workerAt worker).enabled) 0 ref
  refine ⟨reported.updateStep ref fun step => step.declare moment args, raised, fun other => ?_,
    fun id => ?_, ?_, hraised, hraises, ?_⟩
  · rw [stepAt_updateStep, hsame.stepAt, hdescribed, hmembers, trackedObjects]
    by_cases hother : other = ref
    · subst hother
      simp only [if_true]
      rw [hjoinedRef]
      rfl
    · have hown : joined.stepAt other = s.stepAt other := by rw [hjoinedStep, if_neg hother]
      rw [if_neg hother, if_neg hother, if_neg hother, hown]
  · exact ((hsame.same.trans (sameTables_updateStep ..)).getStep id).trans
      ((hopened.getStep id).trans (hrows id))
  · refine hnext.trans (le_of_eq ?_)
    exact (hopened.trans (hsame.same.trans (sameTables_updateStep ..))).nextRef.symm
  · have haccepted : (acceptStep config moment args ref (s.workerAt worker).enabled).exec received =
        (.ok (), raised.registerWorker config moment args ref (s.workerAt worker).enabled) := by
      unfold acceptStep
      rw [exec_modify_bind]
      refine (exec_bind_ok hclaim).trans ?_
      rw [exec_modify_bind]
      refine (exec_bind_ok hreport).trans ?_
      rw [exec_modify_bind, exec_modify_bind]
      exact exec_bind_ok hraised
    have hdrops : (received.stepAt ref).dropsClaim config moment args
        (received.workerAt args.worker).enabled = false := by
      rw [hobject]
      simp only [Step.dropsClaim, hrunning, Bool.or_eq_false_iff]
      exact ⟨rfl, rfl⟩
    unfold addStep
    rw [exec_modify_bind, exec_get_bind, ← hreceived]
    dsimp only
    rw [hrow]
    dsimp only
    rw [hdrops, if_neg Bool.false_ne_true, henabled]
    exact haccepted

/-- What the call with a tracking URL does to a step that runs on the worker. -/
theorem trackUrl_spec (env : Env) (moment : Moment) (url : Option String) (hrows : s.Rows)
    (hget : s.getStep id = some ref) (hrunning : (s.stepAt ref).status = .running)
    (howner : (s.stepAt ref).workerRunning = some worker) :
    ∃ declared held raised : Scheduler,
      (∀ other, declared.stepAt other = s.trackedObjects ref worker id url other) ∧
      (∀ id, declared.getStep id = s.getStep id) ∧ s.nextRef ≤ declared.nextRef ∧
      Holds env.config moment (trackingArgs worker id url)
        (if (s.workerAt worker).enabled = true then (s.stepAt ref).deps.elems else [])
        (if (s.workerAt worker).enabled = true then
          declared.updateStep ref fun step => step.addStakeholder worker else declared) held ∧
      Raises held raised ∧ (updatePriority 0 ref).exec held = (.ok (), raised) ∧
      env.after s ⟨moment, .addStep (trackingArgs worker id url)⟩ =
        raised.registerWorker env.config moment (trackingArgs worker id url) ref
          (s.workerAt worker).enabled := by
  obtain ⟨declared, raised, hdeclared, hsteps, hnext, hraised, hraises, hrun⟩ :=
    trackUrl_exec env.config moment url hget hrunning howner
  have hallocated : declared.Allocated := fun id ref h =>
    ((hrows id ref ((hsteps id).symm.trans h)).1).trans_le hnext
  have hholds := addStakeholders_spec env.config moment (trackingArgs worker id url) ref
    hallocated (s.workerAt worker).enabled
  have hcondition : (trackingArgs worker id url).holds (s.workerAt worker).enabled =
      (s.workerAt worker).enabled := Bool.and_true _
  have hdeps : (declared.stepAt ref).deps = (s.stepAt ref).deps := by
    rw [hdeclared, trackedObjects, if_pos rfl]
    rfl
  rw [hcondition, hdeps] at hholds
  exact ⟨declared, _, raised, hdeclared, hsteps, hnext, hholds, hraises, hraised,
    congrArg Prod.snd (exec_reply (fun _ => Response.nothing) hrun)⟩

/-- The step itself after the dependencies are held: a stakeholder at most. -/
theorem held_tracked {declared held : Scheduler} {deps : List StepId} {enabled : Bool}
    {args : AddStepArgs} (hlt : ref < declared.nextRef)
    (hholds : Holds config moment args deps
      (if enabled = true then declared.updateStep ref fun step => step.addStakeholder worker
        else declared) held) :
    ∃ stakeholders,
      held.stepAt ref = { declared.stepAt ref with stakeholders := stakeholders } := by
  have hbase : ∀ base, base = (if enabled = true then
      declared.updateStep ref fun step => step.addStakeholder worker else declared) →
        ref < base.nextRef ∧ ∃ stakeholders,
          base.stepAt ref = { declared.stepAt ref with stakeholders := stakeholders } := by
    rintro base rfl
    split
    · exact ⟨hlt, _, by rw [stepAt_updateStep, if_pos rfl]; rfl⟩
    · exact ⟨hlt, _, rfl⟩
  obtain ⟨hbaseLt, stakeholders, hobject⟩ := hbase _ rfl
  generalize (if enabled = true then declared.updateStep ref fun step =>
    step.addStakeholder worker else declared) = base at *
  rw [hholds.stepAt ref hbaseLt]
  by_cases hdep : ∃ id ∈ deps, base.getStep id = some ref
  · rw [if_pos hdep, hobject]
    exact ⟨_, rfl⟩
  · rw [if_neg hdep]
    exact ⟨_, hobject⟩

/-- Another step after the dependencies are held: a stakeholder where it is one. -/
theorem held_other {declared held : Scheduler} {deps : List StepId} {enabled : Bool}
    {args : AddStepArgs} {other : Ref} (hlt : other < declared.nextRef) (hne : other ≠ ref)
    (hholds : Holds config moment args deps
      (if enabled = true then declared.updateStep ref fun step => step.addStakeholder worker
        else declared) held) :
    held.stepAt other = if ∃ dep ∈ deps, declared.getStep dep = some other then
      (declared.stepAt other).addStakeholder args.worker else declared.stepAt other := by
  have hbase : ∀ base, base = (if enabled = true then
      declared.updateStep ref fun step => step.addStakeholder worker else declared) →
        base.stepAt other = declared.stepAt other ∧ base.nextRef = declared.nextRef ∧
          ∀ id, base.getStep id = declared.getStep id := by
    rintro base rfl
    split
    · exact ⟨by rw [stepAt_updateStep, if_neg hne], rfl, fun _ => rfl⟩
    · exact ⟨rfl, rfl, fun _ => rfl⟩
  obtain ⟨hobject, hnext, hrow⟩ := hbase _ rfl
  rw [hholds.stepAt other (hnext ▸ hlt), hobject]
  simp only [hrow]

theorem trackedObjects_withProgress {other : Ref} (hne : other ≠ ref) :
    s.trackedObjects ref worker id url other =
      (s.stepAt other).withProgress (s.trackedObjects ref worker id url other) := by
  unfold trackedObjects
  rw [if_neg hne]
  split <;> rfl

theorem trackedObjects_other {other : Ref} (hne : other ≠ ref)
    (hmember : other ∉ s.batchMembers ref) :
    s.trackedObjects ref worker id url other = s.stepAt other := by
  unfold trackedObjects
  rw [if_neg hne, if_neg fun h => hmember h.2]

/-- What the request leaves behind, step by step. -/
theorem stepAt_tracked {held raised : Scheduler} {args : AddStepArgs} {enabled : Bool}
    (hraises : Raises held raised) (other : Ref) :
    (raised.registerWorker config moment args ref enabled).stepAt other =
      if other = ref then
        ({ held.stepAt ref with priority := (raised.stepAt ref).priority } : Step).register config
          args enabled
      else { held.stepAt other with priority := (raised.stepAt other).priority } := by
  rw [stepAt_registerWorker, ← hraises.stepAt, ← hraises.stepAt]

theorem getStep_tracked {held raised : Scheduler} {args : AddStepArgs} {enabled : Bool}
    (hraises : Raises held raised) (id : StepId) :
    (raised.registerWorker config moment args ref enabled).getStep id = held.getStep id := by
  rw [← hraises.same.getStep]
  unfold registerWorker
  dsimp only
  split <;> rfl

/-- Where the step has the terms that the call takes for given, only progress changes. -/
theorem progressOnly_of_tracksInPlace (env : Env) (moment : Moment) (url : Option String)
    (hrows : s.Rows) (hget : s.getStep id = some ref)
    (hrunning : (s.stepAt ref).status = .running)
    (howner : (s.stepAt ref).workerRunning = some worker)
    (hplace : s.TracksInPlace env.config ref worker) :
    ProgressOnly ref s (env.after s ⟨moment, .addStep (trackingArgs worker id url)⟩) := by
  obtain ⟨declared, held, raised, hdeclared, hsteps, hnext, hholds, hraises, hraised, hafter⟩ :=
    trackUrl_spec env moment url hrows hget hrunning howner
  obtain ⟨haccepts, hresources, hretry, hnonneg, hlevel, hknown⟩ := hplace
  have hlt : ref < s.nextRef := (hrows _ _ hget).1
  obtain ⟨stakeholders, hheldRef⟩ := held_tracked (hlt.trans_le hnext) hholds
  rw [hdeclared, trackedObjects, if_pos rfl] at hheldRef
  have hdeps : (held.stepAt ref).deps = (s.stepAt ref).deps := (congrArg Step.deps hheldRef :)
  have hpriority : (held.stepAt ref).priority = (s.stepAt ref).priority :=
    (congrArg Step.priority hheldRef :)
  have hheldOther : ∀ other < s.nextRef, other ≠ ref →
      held.stepAt other = s.trackedObjects ref worker id url other := by
    intro other hother hne
    rw [held_other (hother.trans_le hnext) hne hholds, hdeclared]
    by_cases hdep : ∃ dep ∈ if (s.workerAt worker).enabled = true then
      (s.stepAt ref).deps.elems else [], declared.getStep dep = some other
    · rw [if_pos hdep]
      obtain ⟨dep, hdep, hrow⟩ := hdep
      by_cases henabled : (s.workerAt worker).enabled = true
      · rw [if_pos henabled] at hdep
        rw [hsteps] at hrow
        obtain ⟨target, htarget, hown⟩ := hknown henabled dep hdep
        obtain rfl : other = target := Option.some.inj (hrow.symm.trans htarget)
        have hstakeholders : (s.trackedObjects ref worker id url other).stakeholders =
            (s.stepAt other).stakeholders :=
          (congrArg Step.stakeholders (trackedObjects_withProgress hne) :)
        have hmem := hown.resolve_left hne
        rw [← hstakeholders] at hmem
        exact Step.addStakeholder_of_mem hmem
      · rw [if_neg henabled] at hdep
        cases hdep
    · rw [if_neg hdep]
  have hbaseRows : ∀ base, base = (if (s.workerAt worker).enabled = true then
      declared.updateStep ref fun step => step.addStakeholder worker else declared) →
        ∀ id, base.getStep id = s.getStep id := by
    rintro base rfl id
    split
    · exact hsteps id
    · exact hsteps id
  have hheldRows : ∀ id, held.getStep id = s.getStep id := by
    intro id
    have hbase := hbaseRows _ rfl
    cases hrow : s.getStep id with
    | some other => exact hholds.keeps ((hbase id).trans hrow)
    | none =>
        cases hheld : held.getStep id with
        | none => rfl
        | some other =>
            rcases hholds.fresh hheld with hold | ⟨hdep, -⟩
            · rw [hbase, hrow] at hold
              cases hold
            · by_cases henabled : (s.workerAt worker).enabled = true
              · rw [if_pos henabled] at hdep
                obtain ⟨target, htarget, -⟩ := hknown henabled id hdep
                rw [hrow] at htarget
                cases htarget
              · rw [if_neg henabled] at hdep
                cases hdep
  have hraisedEq : raised = held.raise ref (s.stepAt ref).priority := by
    have hmax : max 0 (held.stepAt ref).priority = (s.stepAt ref).priority := by
      rw [hpriority, max_eq_right hnonneg]
    have hraise : (updatePriority 0 ref).exec held =
        (.ok (), held.raise ref (max 0 (held.stepAt ref).priority)) := updatePriority_level <| by
      intro dep hdep target htarget
      rw [hmax]
      rw [hdeps] at hdep
      rw [hheldRows] at htarget
      by_cases hown : target = ref
      · rw [hown, hpriority]
      · rw [hheldOther target (hrows _ _ htarget).1 hown,
          (congrArg Step.priority (trackedObjects_withProgress hown) :)]
        exact hlevel dep hdep target htarget
    rw [hmax] at hraise
    exact congrArg Prod.snd (hraised.symm.trans hraise)
  have hothers : ∀ key other, s.getStep key = some other → other ≠ ref →
      (env.after s ⟨moment, .addStep (trackingArgs worker id url)⟩).stepAt other =
        s.trackedObjects ref worker id url other := by
    intro key other hrow hne
    rw [hafter, stepAt_registerWorker, if_neg hne, hraisedEq, raise, stepAt_updateStep,
      if_neg hne, hheldOther other (hrows _ _ hrow).1 hne]
  have hown : (env.after s ⟨moment, .addStep (trackingArgs worker id url)⟩).stepAt ref =
      ({ (s.stepAt ref).tracked worker id url with
        stakeholders := stakeholders, priority := (s.stepAt ref).priority } : Step).register
          env.config (trackingArgs worker id url) (s.workerAt worker).enabled := by
    rw [hafter, stepAt_registerWorker, if_pos rfl, hraisedEq, raise, stepAt_updateStep,
      if_pos rfl, hheldRef]
  obtain ⟨hfamily, hparams⟩ := (s.stepAt ref).tracked_terms worker id url
  refine ⟨fun key => ?_, ?_, fun key other hrow hne hmember => ?_,
    fun key other hrow hne hmember => ?_⟩
  · rw [hafter, getStep_tracked hraises, hheldRows]
  · rw [hown]
    exact ⟨rfl, rfl, rfl, hresources.symm, rfl, rfl, hretry.symm, haccepts.symm, hfamily, hparams,
      rfl⟩
  · rw [hothers key other hrow hne]
    exact trackedObjects_withProgress hne
  · rw [hothers key other hrow hne]
    exact trackedObjects_other hne hmember

/-- A call with a tracking URL that only changes progress finds these terms. -/
theorem tracksInPlace_of_progressOnly (env : Env) (moment : Moment) (url : Option String)
    (hrows : s.Rows) (hget : s.getStep id = some ref)
    (hrunning : (s.stepAt ref).status = .running)
    (howner : (s.stepAt ref).workerRunning = some worker)
    (honly : ProgressOnly ref s (env.after s ⟨moment, .addStep (trackingArgs worker id url)⟩)) :
    s.TracksInPlace env.config ref worker := by
  obtain ⟨declared, held, raised, hdeclared, hsteps, hnext, hholds, hraises, hraised, hafter⟩ :=
    trackUrl_spec env moment url hrows hget hrunning howner
  have hlt : ref < s.nextRef := (hrows _ _ hget).1
  obtain ⟨stakeholders, hheldRef⟩ := held_tracked (hlt.trans_le hnext) hholds
  rw [hdeclared, trackedObjects, if_pos rfl] at hheldRef
  set t := env.after s ⟨moment, .addStep (trackingArgs worker id url)⟩ with ht
  have hown : t.stepAt ref = ({ held.stepAt ref with
      priority := (raised.stepAt ref).priority } : Step).register env.config
        (trackingArgs worker id url) (s.workerAt worker).enabled := by
    rw [hafter, stepAt_tracked hraises, if_pos rfl]
  have hothers : ∀ other, other ≠ ref → t.stepAt other =
      { held.stepAt other with priority := (raised.stepAt other).priority } := by
    intro other hne
    rw [hafter, stepAt_tracked hraises, if_neg hne]
  -- the other steps keep their stakeholders and priorities
  have hkept : ∀ id other, s.getStep id = some other → other ≠ ref →
      (t.stepAt other).stakeholders = (s.stepAt other).stakeholders ∧
        (t.stepAt other).priority = (s.stepAt other).priority := by
    intro id other hrow hne
    by_cases hmember : other ∈ s.batchMembers ref
    · have hobject := honly.member id other hrow hne hmember
      exact ⟨(congrArg Step.stakeholders hobject :), (congrArg Step.priority hobject :)⟩
    · rw [honly.other id other hrow hne hmember]
      exact ⟨rfl, rfl⟩
  have hraisedRef : (raised.stepAt ref).priority = (s.stepAt ref).priority :=
    (congrArg Step.priority hown).symm.trans honly.own.priority
  obtain ⟨lifted, hlift, -, hself, hupstream⟩ := updatePriority_spec held 0 ref
  obtain rfl : raised = lifted := congrArg Prod.snd (hraised.symm.trans hlift)
  have hheldPriority : (held.stepAt ref).priority = (s.stepAt ref).priority :=
    (congrArg Step.priority hheldRef :)
  have hheldDeps : (held.stepAt ref).deps = (s.stepAt ref).deps := (congrArg Step.deps hheldRef :)
  rw [hraisedRef, hheldPriority] at hself
  rw [hheldPriority, hheldDeps] at hupstream
  have hkeeps : ∀ key other, s.getStep key = some other → held.getStep key = some other := by
    intro key other hrow
    refine hholds.keeps ?_
    split
    · exact (hsteps key).trans hrow
    · exact (hsteps key).trans hrow
  have hrow : ∀ key, held.getStep key = s.getStep key := fun key => by
    rw [← honly.rows, hafter, getStep_tracked hraises]
  refine ⟨honly.own.acceptsMessages.symm.trans ?_, honly.own.resources.symm.trans ?_,
    honly.own.retryPolicy.symm.trans ?_, (le_max_left _ _).trans hself,
    fun dep hdep target htarget => ?_, fun henabled dep hdep => ?_⟩
  · rw [hown, hheldRef]
    rfl
  · rw [hown, hheldRef]
    rfl
  · rw [hown]
    rfl
  · by_cases hne : target = ref
    · rw [hne]
    · refine (le_max_right _ _).trans ((hupstream dep hdep target (hkeeps _ _ htarget)).trans
        (le_of_eq ?_))
      rw [← (hkept dep target htarget hne).2, hothers target hne]
  · obtain ⟨target, htarget⟩ := hholds.present dep (by rw [if_pos henabled]; exact hdep)
    have htargetRow := (hrow dep).symm.trans htarget
    refine ⟨target, htargetRow, ?_⟩
    by_cases hne : target = ref
    · exact .inl hne
    · right
      rw [← (hkept dep target htargetRow hne).1, hothers target hne]
      have hobject := held_other ((hrows _ _ htargetRow).1.trans_le hnext) hne hholds
      rw [if_pos ⟨dep, by rw [if_pos henabled]; exact hdep, (hsteps dep).trans htargetRow⟩]
        at hobject
      rw [(congrArg Step.stakeholders hobject :)]
      exact Finset.mem_insert_self _ _

end Tracking

end Scheduler

open Scheduler

namespace Env

variable (env : Env) {id : StepId} {ref : Ref} {worker : WorkerId}

/-- In every reachable state a report on a run of the worker changes nothing but progress
exactly where the step has the terms that the report takes for given. -/
theorem report_changes_progress (resources : Resources) (events : List Event) (moment : Moment)
    (progress : Progress) (hget : (env.run (.initial resources) events).getStep id = some ref)
    (hrunning : ((env.run (.initial resources) events).stepAt ref).status = .running)
    (howner : ((env.run (.initial resources) events).stepAt ref).workerRunning = some worker) :
    ProgressOnly ref (env.run (.initial resources) events)
        (env.after (env.run (.initial resources) events) ⟨moment, progress.request worker id⟩) ↔
      (env.run (.initial resources) events).ReportsInPlace env.config ref worker progress := by
  have hrows := run_rows env resources events
  generalize env.run (.initial resources) events = s at *
  cases progress with
  | trackingUrl url =>
      exact ⟨tracksInPlace_of_progressOnly env moment url hrows hget hrunning howner,
        progressOnly_of_tracksInPlace env moment url hrows hget hrunning howner⟩
  | statusMessage message =>
      exact iff_of_true (progressOnly_reportToBatch hget hrunning (fun _ => rfl) fun _ => rfl)
        trivial
  | progressPercentage amount =>
      exact iff_of_true (progressOnly_reportToBatch hget hrunning (fun _ => rfl) fun _ => rfl)
        trivial

end Env

/-- A worker runs a step that needs a resource. -/
def demandingRun : List Event :=
  [ requestAt 1 (.addStep
      { worker := firstWorker, stepId := "a", resources := some (Dict.set ∅ "r" 1) }),
    requestAt 2 (.getWork { worker := firstWorker, currentSteps := some [] }) ]

/-- The tracking URL costs the step its demand. -/
theorem tracking_drops_resources :
    Timely demandingRun ∧
      (defaultEnv.run (.initial ∅) demandingRun).getStep "a" = some 0 ∧
      ((defaultEnv.run (.initial ∅) demandingRun).stepAt 0).status = .running ∧
      ((defaultEnv.run (.initial ∅) demandingRun).stepAt 0).workerRunning = some firstWorker ∧
      ¬ProgressOnly 0 (defaultEnv.run (.initial ∅) demandingRun)
        (defaultEnv.after (defaultEnv.run (.initial ∅) demandingRun)
          ⟨{ now := 3 }, (Progress.trackingUrl (some "url")).request firstWorker "a"⟩) := by
  refine ⟨by decide +kernel, by decide +kernel, by decide +kernel, by decide +kernel, ?_⟩
  intro honly
  exact absurd honly.own.resources (by decide +kernel)

theorem plain_run_is_tracked :
    ProgressOnly 0 (defaultEnv.run (.initial ∅) sharedRun)
      (defaultEnv.after (defaultEnv.run (.initial ∅) sharedRun)
        ⟨{ now := 4 }, (Progress.trackingUrl (some "url")).request firstWorker "a"⟩) := by
  have hiff := @Env.report_changes_progress defaultEnv "a" 0 firstWorker ∅ sharedRun { now := 4 }
    (.trackingUrl (some "url")) (by decide +kernel) (by decide +kernel) (by decide +kernel)
  have hplace : (defaultEnv.run (.initial ∅) sharedRun).TracksInPlace defaultEnv.config 0
      firstWorker := by decide +kernel
  exact hiff.mpr hplace

end Trun
