import Trun.Worker.Session

/-!
# Dependencies that are not fulfilled at run time

`StepProcess.run` names the dependencies that are not complete, each with the
outputs that do not exist.  It iterates over what `output` returns as if that
were a list of targets.  Where it is not, the exception ends the list early,
and the worker does not add the step again for the dependencies that follow.
A dependency that the completion cache knows to be complete is not asked.
-/

namespace Trun

open Program

namespace StepCode

variable {σ : Type} (code : StepCode σ)

/-- The output is a list or tuple of targets that can be asked whether they exist, or an empty
dict. -/
def Describable (world : σ) (id : StepId) : Prop :=
  match code.output id with
  | .item _ => False
  | .list parts | .tuple parts => ∀ part ∈ parts, ∃ target found,
      part = .item (some target) ∧ code.targetExists target world = .ok found
  | .dict entries => entries = []

/-- The entry of a dependency in `missing`, with whatever outputs. -/
def Names (id : StepId) (entry : String) : Prop := ∃ outputs, entry = missingEntry id outputs

/-- The dependencies that are not complete. -/
def incompleteDeps (world : σ) (deps : List StepId) : List StepId :=
  deps.filter fun dep => (code.complete dep world).truth = .ok false

/-- Those of them that the cache does not know to be complete. -/
def lackingDeps (config : WorkerConfig) (world : σ) (cache : CompletionCache)
    (deps : List StepId) : List StepId :=
  (code.incompleteDeps world deps).filter fun dep =>
    !(config.cacheStepCompletion && cache.contains dep)

variable {code} {config : WorkerConfig} {world : σ} {cache : CompletionCache} {id : StepId}
  {deps : List StepId}

theorem absentTargets_ok_iff {parts : List Output} :
    (∃ absent, code.absentTargets world parts = .ok absent) ↔ ∀ part ∈ parts, ∃ target found,
      part = .item (some target) ∧ code.targetExists target world = .ok found := by
  induction parts with
  | nil => exact ⟨fun _ => nofun, fun _ => ⟨[], rfl⟩⟩
  | cons part parts ih =>
      rw [List.forall_mem_cons, ← ih]
      constructor
      · rintro ⟨absent, habsent⟩
        unfold absentTargets at habsent
        split at habsent
        · next hparts => cases hparts
        · next target rest hparts =>
            obtain ⟨rfl, rfl⟩ := List.cons.inj hparts
            cases hfound : code.targetExists target world with
            | error failure =>
                rw [hfound] at habsent
                cases habsent
            | ok found =>
                refine ⟨⟨target, found, rfl, hfound⟩, ?_⟩
                rw [hfound] at habsent
                cases hrest : code.absentTargets world parts with
                | error failure =>
                    rw [hrest] at habsent
                    cases habsent
                | ok others => exact ⟨others, rfl⟩
        · cases habsent
      · rintro ⟨⟨target, found, rfl, hfound⟩, others, hothers⟩
        exact ⟨if found then others else target :: others, by
          rw [absentTargets, hfound, hothers]⟩

/-- The outputs of a dependency are listed where they can be. -/
theorem nonexistentOutputs_ok_iff :
    (∃ outputs, code.nonexistentOutputs world id = .ok outputs) ↔ code.Describable world id := by
  rw [nonexistentOutputs, Describable]
  cases code.output id with
  | item target => exact ⟨fun ⟨_, h⟩ => (nomatch h), False.elim⟩
  | list parts => exact absentTargets_ok_iff
  | tuple parts => exact absentTargets_ok_iff
  | dict entries =>
      cases entries with
      | nil => exact ⟨fun _ => rfl, fun _ => ⟨[], rfl⟩⟩
      | cons entry entries => exact ⟨fun ⟨_, h⟩ => (nomatch h), fun h => (nomatch h)⟩

/-- A complete step is passed over, and may go into the cache. -/
theorem checkComplete_of_complete (config : WorkerConfig) (cache : CompletionCache)
    (hcomplete : (code.complete id world).truth = .ok true) :
    ∃ cache', code.checkComplete config world cache id = (.ok true, cache') ∧
      ∀ deps,
        code.lackingDeps config world cache' deps = code.lackingDeps config world cache deps := by
  rw [checkComplete, checkCompleteCached]
  split
  · exact ⟨cache, rfl, fun _ => rfl⟩
  · refine ⟨_, Prod.ext hcomplete rfl, fun deps => ?_⟩
    dsimp only
    split
    · -- the new entry is no incomplete step
      refine List.filter_congr fun dep hdep => ?_
      have hne : dep ≠ id := by
        rintro rfl
        have hincomplete := of_decide_eq_true (List.mem_filter.mp hdep).2
        cases hincomplete.symm.trans hcomplete
      simp [hne]
    · rfl

/-- An incomplete step is complete only to the cache. -/
theorem checkComplete_of_incomplete (config : WorkerConfig) (cache : CompletionCache)
    (hincomplete : (code.complete id world).truth = .ok false) :
    code.checkComplete config world cache id =
      (.ok (config.cacheStepCompletion && cache.contains id), cache) := by
  have hfalse : (code.complete id world).isTrue = false := by
    cases hcomplete : code.complete id world with
    | raises failure => rfl
    | _ value =>
        rw [hcomplete] at hincomplete
        exact Except.ok.inj hincomplete
  rw [checkComplete, checkCompleteCached]
  split
  · next hknown =>
      rw [hknown]
      rfl
  · next hunknown =>
      rw [Bool.eq_false_of_not_eq_true hunknown]
      dsimp only
      rw [hincomplete, hfalse, Bool.and_false, if_neg Bool.false_ne_true]

section Cons

variable {dep : StepId} (deps)

/-- A dependency that is not lacking is passed over. -/
theorem findMissing_cons_of_complete (config : WorkerConfig) (cache : CompletionCache)
    (hcomplete : (code.complete dep world).truth = .ok true) :
    ∃ cache', code.findMissing config world cache (dep :: deps) =
        code.findMissing config world cache' deps ∧
      code.lackingDeps config world cache (dep :: deps) =
        code.lackingDeps config world cache' deps := by
  obtain ⟨cache', hcheck, hlacking⟩ := checkComplete_of_complete config cache hcomplete
  refine ⟨cache', ?_, ?_⟩
  · rw [findMissing, hcheck]
  · rw [hlacking, lackingDeps, incompleteDeps, List.filter_cons_of_neg (by simp [hcomplete])]
    rfl

theorem incompleteDeps_cons (hincomplete : (code.complete dep world).truth = .ok false) :
    code.incompleteDeps world (dep :: deps) = dep :: code.incompleteDeps world deps :=
  List.filter_cons_of_pos (by simp [hincomplete])

theorem findMissing_cons_of_known (hincomplete : (code.complete dep world).truth = .ok false)
    (hknown : (config.cacheStepCompletion && cache.contains dep) = true) :
    code.findMissing config world cache (dep :: deps) =
        code.findMissing config world cache deps ∧
      code.lackingDeps config world cache (dep :: deps) =
        code.lackingDeps config world cache deps := by
  constructor
  · rw [findMissing, checkComplete_of_incomplete config cache hincomplete, hknown]
  · rw [lackingDeps, incompleteDeps_cons deps hincomplete,
      List.filter_cons_of_neg (by rw [hknown]; simp)]
    rfl

theorem lackingDeps_cons (hincomplete : (code.complete dep world).truth = .ok false)
    (hunknown : (config.cacheStepCompletion && cache.contains dep) = false) :
    code.lackingDeps config world cache (dep :: deps) =
      dep :: code.lackingDeps config world cache deps := by
  rw [lackingDeps, incompleteDeps_cons deps hincomplete,
    List.filter_cons_of_pos (by rw [hunknown]; simp)]
  rfl

/-- The loop stops at a lacking dependency that it cannot describe. -/
theorem findMissing_cons_of_error (hincomplete : (code.complete dep world).truth = .ok false)
    (hunknown : (config.cacheStepCompletion && cache.contains dep) = false) {failure : Failure}
    (houtputs : code.nonexistentOutputs world dep = .error failure) :
    code.findMissing config world cache (dep :: deps) = ([], some failure, cache) := by
  rw [findMissing, checkComplete_of_incomplete config cache hincomplete, hunknown]
  dsimp only
  rw [houtputs]

theorem findMissing_cons_of_ok (hincomplete : (code.complete dep world).truth = .ok false)
    (hunknown : (config.cacheStepCompletion && cache.contains dep) = false)
    {outputs : List Target} (houtputs : code.nonexistentOutputs world dep = .ok outputs) :
    code.findMissing config world cache (dep :: deps) =
      (missingEntry dep outputs :: (code.findMissing config world cache deps).1,
        (code.findMissing config world cache deps).2) := by
  rw [findMissing, checkComplete_of_incomplete config cache hincomplete, hunknown]
  dsimp only
  rw [houtputs]

end Cons

/-- The loop over the dependencies lists those that are not complete and not known to the cache,
up to the first one that cannot be described. -/
theorem findMissing_spec (config : WorkerConfig) (cache : CompletionCache)
    (hcomplete : ∀ dep ∈ deps, ∃ value, (code.complete dep world).truth = .ok value) :
    ((∀ dep ∈ code.lackingDeps config world cache deps, code.Describable world dep) ∧
      ∃ missing cache', code.findMissing config world cache deps = (missing, none, cache') ∧
        List.Forall₂ Names (code.lackingDeps config world cache deps) missing) ∨
    ((∃ dep ∈ code.lackingDeps config world cache deps, ¬code.Describable world dep) ∧
      ∃ missing failure cache',
        code.findMissing config world cache deps = (missing, some failure, cache') ∧
        missing.length < (code.lackingDeps config world cache deps).length) := by
  induction deps generalizing cache with
  | nil => exact .inl ⟨nofun, [], cache, rfl, .nil⟩
  | cons dep deps ih =>
      obtain ⟨⟨value, hvalue⟩, hcomplete⟩ := List.forall_mem_cons.mp hcomplete
      cases value with
      | true =>
          obtain ⟨cache', hfind, hskip⟩ := findMissing_cons_of_complete deps config cache hvalue
          rw [hskip, hfind]
          exact ih cache' hcomplete
      | false =>
          cases hknown : config.cacheStepCompletion && cache.contains dep with
          | true =>
              obtain ⟨hfind, hskip⟩ := findMissing_cons_of_known deps hvalue hknown
              rw [hskip, hfind]
              exact ih cache hcomplete
          | false =>
              rw [lackingDeps_cons deps hvalue hknown]
              cases houtputs : code.nonexistentOutputs world dep with
              | error failure =>
                  have hfind := findMissing_cons_of_error deps hvalue hknown houtputs
                  refine .inr ⟨⟨dep, List.mem_cons_self .., fun hdescribable => ?_⟩, [], failure,
                    cache, hfind, Nat.succ_pos _⟩
                  obtain ⟨outputs, hok⟩ := nonexistentOutputs_ok_iff.mpr hdescribable
                  cases houtputs.symm.trans hok
              | ok outputs =>
                  have hdescribable := nonexistentOutputs_ok_iff.mp ⟨outputs, houtputs⟩
                  rw [findMissing_cons_of_ok deps hvalue hknown houtputs]
                  rcases ih cache hcomplete with ⟨hall, missing, last, hrest, hnames⟩ |
                    ⟨⟨other, hother, hnot⟩, missing, failure, last, hrest, hlt⟩
                  · rw [hrest]
                    exact .inl ⟨List.forall_mem_cons.mpr ⟨hdescribable, hall⟩, _, last, rfl,
                      .cons ⟨outputs, rfl⟩ hnames⟩
                  · rw [hrest]
                    exact .inr ⟨⟨other, List.mem_cons_of_mem _ hother, hnot⟩, _, failure, last, rfl,
                      Nat.succ_lt_succ hlt⟩

/-- The process of a step whose dependencies can all be described, or not. -/
theorem checkDeps_spec (cache : CompletionCache) (hcheck : config.checkUnfulfilledDeps = true)
    (hexternal : code.external id = false) (hdeps : code.deps id world = .ok deps)
    (hcomplete : ∀ dep ∈ deps, ∃ value, (code.complete dep world).truth = .ok value) :
    ((∀ dep ∈ code.lackingDeps config world cache deps, code.Describable world dep) ∧
      ∃ missing failure cache', code.checkDeps config id world cache = (missing, failure, cache') ∧
        List.Forall₂ Names (code.lackingDeps config world cache deps) missing ∧
        (missing ≠ [] → failure.isSome)) ∨
    ((∃ dep ∈ code.lackingDeps config world cache deps, ¬code.Describable world dep) ∧
      (code.checkDeps config id world cache).1.length <
        (code.lackingDeps config world cache deps).length) := by
  have hasked : (config.checkUnfulfilledDeps && !code.external id) = true := by
    rw [hcheck, hexternal]
    rfl
  rw [checkDeps, if_pos hasked, hdeps]
  dsimp only
  obtain ⟨hall, missing, last, hfind, hnames⟩ | ⟨hnot, missing, failure, last, hfind, hlt⟩ :=
    findMissing_spec config cache hcomplete
  · left
    rw [hfind]
    cases missing with
    | nil => exact ⟨hall, _, _, _, rfl, hnames, fun hsome => absurd rfl hsome⟩
    | cons entry missing => exact ⟨hall, _, _, _, rfl, hnames, fun _ => rfl⟩
  · right
    rw [hfind]
    refine ⟨hnot, ?_⟩
    cases missing <;> exact hlt

theorem process_of_missing {missing : List String} {failure : Failure} {cache' : CompletionCache}
    (hcheck : code.checkDeps config id world cache = (missing, some failure, cache')) :
    code.process config id world cache =
      ⟨world, cache', none, code.failedResult id failure missing⟩ := by
  rw [process, hcheck]

theorem successResult_missing (id : StepId) : (code.successResult id).missing = [] := by
  unfold successResult
  split <;> rfl

theorem doneResult_missing : (code.doneResult config id world cache).1.missing = [] := by
  unfold doneResult
  split
  · split
    · rfl
    · rfl
    · exact successResult_missing id
  · exact successResult_missing id

theorem externalResult_missing : (code.externalResult config id world cache).1.missing = [] := by
  unfold externalResult
  split
  · rfl
  · rfl
  · exact successResult_missing id

theorem runResult_missing (ending : RunEnd) :
    (code.runResult config id world cache ending).1.missing = [] := by
  unfold runResult
  split
  · rfl
  · split
    · exact doneResult_missing
    · rfl

/-- A check that raises nothing has found nothing. -/
theorem checkDeps_of_ok {missing : List String} {cache' : CompletionCache}
    (hcheck : code.checkDeps config id world cache = (missing, none, cache')) : missing = [] := by
  unfold checkDeps at hcheck
  repeat' split at hcheck
  all_goals first
    | exact (congrArg Prod.fst hcheck).symm
    | cases congrArg (fun result => result.2.1) hcheck

/-- Only the check of the dependencies names any. -/
theorem process_missing : (code.process config id world cache).result.missing =
    (code.checkDeps config id world cache).1 := by
  rcases hcheck : code.checkDeps config id world cache with ⟨missing, _ | failure, cache'⟩
  · rw [checkDeps_of_ok hcheck, process, hcheck]
    dsimp only
    split
    · exact externalResult_missing
    · exact runResult_missing _
  · rw [process_of_missing hcheck]
    rfl

end StepCode

namespace Setting

variable {σ : Type} (setting : Setting σ)

/-- A failed result is reported, its missing dependencies are counted and the step is added. -/
def reportAndAdd (fuel : ℕ) (result : StepResult) (rest : List StepResult) : WorkerM σ Unit := do
  modify fun w => { w with idleSince := none, stepResultQueue := rest }
  setting.addStep (setting.reportArgs result []) none
  modify fun w => { w with runningSteps := w.runningSteps.removeAll [result.stepId] }
  modify fun w => (setting.countMissing w result.missing).1
  let _ ← setting.add fuel result.stepId
  modify fun w => { w with runSucceeded := false }

/-- No entry of the result has been seen too often, this time included. -/
def SeldomMissing (w : Session σ) (missing : List String) : Prop :=
  ∀ entry ∈ missing,
    w.unfulfilledCounts.getD entry 0 + missing.count entry ≤ setting.config.maxReschedules

/-- The process of the step puts one result on the queue.  If dependencies are not complete it
names them all, without having run the step, and the worker adds the step again. -/
def ReportsInFull (w : Session σ) (id : StepId) (incomplete : List StepId) : Prop :=
  ∃ result, (setting.runStep id).result w = .ok () ∧
    ((setting.runStep id).final w).stepResultQueue = w.stepResultQueue ++ [result] ∧
    (incomplete ≠ [] → result.stepId = id ∧ result.status = .failed ∧
      List.Forall₂ StepCode.Names incomplete result.missing ∧
      ((setting.runStep id).final w).runs = w.runs ∧
      ∀ fuel u rest, u.stepResultQueue = result :: rest → id ∈ u.scheduledSteps →
        id ∈ u.runningSteps → setting.SeldomMissing u result.missing →
        (setting.handleNextStep fuel).exec u = (setting.reportAndAdd fuel result rest).exec u)

variable {setting} {w : Session σ} {id : StepId} {deps : List StepId}

/-- The step process that a worker starts. -/
def processed (setting : Setting σ) (w : Session σ) (id : StepId) : StepCode.Processed σ :=
  setting.code.process setting.config id w.world w.completionCache

theorem runStep_exec (hidle : id ∉ w.runningSteps) (hscheduled : id ∈ w.scheduledSteps) :
    (setting.runStep id).exec w = (.ok (), { w with
      world := (setting.processed w id).world
      completionCache := (setting.processed w id).cache
      runs := w.runs ++ (setting.processed w id).run.toList
      runningSteps := w.runningSteps.add id
      stepResultQueue := w.stepResultQueue ++ [(setting.processed w id).result] }) := by
  rw [runStep, exec_get_bind, if_neg hidle, if_pos hscheduled]
  rfl

/-- The counts of the entries, and whether all are within the bound. -/
theorem countMissing_again (missing : List String) :
    (setting.countMissing w missing).2 = true ↔ setting.SeldomMissing w missing := by
  suffices h : ∀ again, (missing.foldl
      (fun current entry =>
        let counts := current.1.unfulfilledCounts.modify entry 0 (· + 1)
        ({ current.1 with unfulfilledCounts := counts },
          current.2 && decide (counts.getD entry 0 ≤ setting.config.maxReschedules)))
      (w, again)).2 = true ↔ again = true ∧ setting.SeldomMissing w missing by
    rw [countMissing, h, and_iff_right rfl]
  induction missing generalizing w with
  | nil => exact fun again => (and_iff_left (List.forall_mem_nil _)).symm
  | cons entry missing ih =>
      intro again
      rw [List.foldl_cons, ih, Bool.and_eq_true, decide_eq_true_eq, and_assoc]
      simp only [SeldomMissing, Dict.getD_modify, if_true, List.forall_mem_cons,
        List.count_cons_self]
      refine and_congr_right fun _ => ?_
      constructor
      · rintro ⟨hentry, hrest⟩
        have hall : ∀ other ∈ missing,
            w.unfulfilledCounts.getD other 0 + (entry :: missing).count other ≤
              setting.config.maxReschedules := by
          intro other hother
          have hle := hrest other hother
          rw [List.count_cons]
          by_cases heq : other = entry
          · subst heq
            simp only [if_true, beq_self_eq_true] at hle ⊢
            omega
          · simp only [if_neg heq, beq_iff_eq, if_neg (Ne.symm heq)] at hle ⊢
            exact hle
        refine ⟨?_, hall⟩
        by_cases hmem : entry ∈ missing
        · have hle := hall entry hmem
          rw [List.count_cons_self] at hle
          exact hle
        · rw [List.count_eq_zero_of_not_mem hmem]
          exact hentry
      · rintro ⟨hentry, hrest⟩
        refine ⟨by omega, fun other hother => ?_⟩
        have hle := hrest other hother
        rw [List.count_cons] at hle
        by_cases heq : other = entry
        · subst heq
          simp only [if_true, beq_self_eq_true] at hle ⊢
          omega
        · simp only [if_neg heq, beq_iff_eq, if_neg (Ne.symm heq)] at hle ⊢
          exact hle

/-- A report leaves the counts alone. -/
theorem addStep_counts {args : AddStepArgs} {runnable : Option Bool} {u : Session σ}
    (hrun : (setting.addStep args runnable).exec w = (.ok (), u)) :
    u.unfulfilledCounts = w.unfulfilledCounts := by
  unfold addStep at hrun
  rw [exec_modify_bind] at hrun
  obtain ⟨response, middle, hask, hlast⟩ := exec_bind_eq_ok hrun
  cases hlast
  unfold ask at hask
  rw [exec_get_bind, exec_modify_bind] at hask
  split at hask
  · cases hask
    rfl
  · cases hask

/-- A step is added again that has named dependencies, none of them too often. -/
theorem reschedule_exec (id : StepId) {missing : List String} (fuel : ℕ) (hmissing : missing ≠ [])
    (hagain : (setting.countMissing w missing).2 = true) :
    (setting.reschedule fuel id missing).exec w =
      (setting.add fuel id >>= fun _ => pure ()).exec (setting.countMissing w missing).1 := by
  unfold reschedule
  rw [if_neg (mt List.isEmpty_iff.mp hmissing), exec_get_bind, exec_modify_bind, if_pos hagain]

/-- A result with missing dependencies is handled, the step added again. -/
theorem handleNextStep_readds {result : StepResult} {rest : List StepResult} (fuel : ℕ)
    (hqueue : w.stepResultQueue = result :: rest) (hscheduled : result.stepId ∈ w.scheduledSteps)
    (hrunning : result.stepId ∈ w.runningSteps) (hstatus : result.status = .failed)
    (hdeps : result.newDeps = []) (hmissing : result.missing ≠ [])
    (hseldom : setting.SeldomMissing w result.missing) :
    (setting.handleNextStep fuel).exec w = (setting.reportAndAdd fuel result rest).exec w := by
  have htaken : (setting.handleNextStep fuel).exec w = (setting.handleResult fuel result).exec
      { w with idleSince := none, stepResultQueue := rest } := by
    unfold handleNextStep
    rw [exec_modify_bind, exec_get_bind]
    dsimp only
    rw [hqueue, handleQueue, exec_get_bind, exec_modify_bind, if_neg (not_not_intro hscheduled),
      if_pos hrunning]
  rw [htaken]
  unfold handleResult reportAndAdd
  rw [hdeps, loadRequirements, exec_modify_bind]
  change (setting.addStep (setting.reportArgs result []) none >>= _).exec _ = _
  rcases hreport : (setting.addStep (setting.reportArgs result []) none).exec
    { w with idleSince := none, stepResultQueue := rest } with ⟨fault | ⟨⟩, u⟩
  · rw [exec_bind_error hreport, exec_bind_error hreport]
  · rw [exec_bind_ok hreport, exec_bind_ok hreport, exec_modify_bind, exec_modify_bind]
    have hagain : (setting.countMissing
        { u with runningSteps := u.runningSteps.removeAll [result.stepId] }
        result.missing).2 = true := by
      rw [countMissing_again]
      intro entry hentry
      have hle := hseldom entry hentry
      rw [← addStep_counts hreport] at hle
      exact hle
    have hreschedule := reschedule_exec result.stepId fuel hmissing hagain
    rcases hadd : (setting.add fuel result.stepId).exec (setting.countMissing
        { u with runningSteps := u.runningSteps.removeAll [result.stepId] }
        result.missing).1 with ⟨fault | value, v⟩
    · rw [exec_bind_error hadd] at hreschedule
      rw [exec_bind_error hreschedule, exec_modify_bind, exec_bind_error hadd]
    · rw [exec_bind_ok hadd, exec_pure] at hreschedule
      rw [exec_bind_ok hreschedule, exec_modify_bind, exec_bind_ok hadd, exec_modify, exec_modify,
        hstatus]
      simp

/-- The process of a step that is not external names the dependencies that are not complete,
in order, does not run the step, and the worker adds it again, exactly if there are none, or it
checks them, the cache knows none of them, and the output of each can be iterated and yields
targets only. -/
theorem reportsInFull_iff (w : Session σ) (id : StepId) (deps : List StepId)
    (hscheduled : id ∈ w.scheduledSteps) (hidle : id ∉ w.runningSteps)
    (hexternal : setting.code.external id = false)
    (hdeps : setting.code.deps id w.world = .ok deps)
    (hcomplete : ∀ dep ∈ deps, ∃ value, (setting.code.complete dep w.world).truth = .ok value) :
    setting.ReportsInFull w id (setting.code.incompleteDeps w.world deps) ↔
      setting.code.incompleteDeps w.world deps = [] ∨
        setting.config.checkUnfulfilledDeps = true ∧
          ∀ dep ∈ setting.code.incompleteDeps w.world deps,
            setting.knows w.completionCache dep = false ∧ setting.code.Describable w.world dep := by
  have hexec := setting.runStep_exec hidle hscheduled
  by_cases hnone : setting.code.incompleteDeps w.world deps = []
  · rw [hnone]
    refine iff_of_true ⟨(setting.processed w id).result, congrArg Prod.fst hexec, ?_,
      fun hsome => absurd rfl hsome⟩ (.inl rfl)
    rw [final, hexec]
  rw [or_iff_right hnone]
  constructor
  · rintro ⟨result, -, hqueue, hfull⟩
    rw [final, hexec] at hqueue
    obtain rfl := List.singleton_inj.mp (List.append_cancel_left hqueue)
    obtain ⟨-, -, hnames, -⟩ := hfull hnone
    rw [processed, StepCode.process_missing] at hnames
    have hlength := hnames.length_eq
    have hasked : setting.config.checkUnfulfilledDeps = true := by
      by_contra hunchecked
      rw [StepCode.checkDeps, Bool.eq_false_of_not_eq_true hunchecked] at hnames
      exact hnone (List.forall₂_nil_right_iff.mp hnames)
    refine ⟨hasked, ?_⟩
    have hle : (setting.code.lackingDeps setting.config w.world w.completionCache deps).length ≤
        (setting.code.incompleteDeps w.world deps).length := List.length_filter_le ..
    rcases StepCode.checkDeps_spec w.completionCache hasked hexternal hdeps hcomplete with
      ⟨hall, missing, failure, cache, hcheck, hlisted, -⟩ | ⟨-, hlt⟩
    · rw [hcheck] at hlength
      have hsame := List.length_filter_eq_length_iff.mp (hlisted.length_eq.trans hlength.symm)
      intro dep hdep
      have hunknown := hsame dep hdep
      exact ⟨(Bool.not_eq_eq_eq_not ..).mp hunknown,
        hall dep (List.mem_filter.mpr ⟨hdep, hunknown⟩)⟩
    · omega
  · rintro ⟨hasked, hall⟩
    have hlacking : setting.code.lackingDeps setting.config w.world w.completionCache deps =
        setting.code.incompleteDeps w.world deps :=
      List.filter_eq_self.mpr fun dep hdep => by rw [← knows, (hall dep hdep).1]; rfl
    have hspec := StepCode.checkDeps_spec w.completionCache hasked hexternal hdeps hcomplete
    rw [hlacking] at hspec
    rcases hspec with ⟨-, missing, failure, cache, hcheck, hnames, hraised⟩ | ⟨⟨dep, hdep, hnot⟩, -⟩
    · have hsome : missing ≠ [] := by
        rintro rfl
        exact hnone (List.forall₂_nil_right_iff.mp hnames)
      obtain ⟨failure, rfl⟩ := Option.isSome_iff_exists.mp (hraised hsome)
      have hprocess : setting.processed w id =
          ⟨w.world, cache, none, setting.code.failedResult id failure missing⟩ :=
        StepCode.process_of_missing hcheck
      rw [hprocess] at hexec
      refine ⟨setting.code.failedResult id failure missing, congrArg Prod.fst hexec, ?_,
        fun _ => ⟨rfl, rfl, hnames, ?_, ?_⟩⟩
      · rw [final, hexec]
      · rw [final, hexec]
        exact List.append_nil _
      · intro fuel u rest hqueue hscheduled hrunning hseldom
        exact handleNextStep_readds fuel hqueue hscheduled hrunning rfl rfl hsome hseldom
    · exact absurd (hall dep hdep).2 hnot

end Setting

/-! ## A dependency with one target -/

/-- `A` depends on `B`, which is not complete. -/
def lackingCode (output : Output) : StepCode Unit where
  family := id
  module _ := none
  params _ := ∅
  priority _ := 0
  resources _ := ∅
  batchable _ := false
  batchParamNames _ := []
  maxBatchSize _ := none
  retryPolicy _ := {}
  acceptsMessages _ := false
  disabled _ := false
  external _ := false
  complete _ _ := .answers false
  requires id _ := .ok (.list (if id = "A" then [.item "B"] else []))
  run _ _ := .returns ()
  output _ := output
  targetExists _ _ := .ok false
  onSuccess _ := .ok "null"
  onFailure _ _ := "failed"
  load _ family _ := .ok family

def lackingSetting (output : Output) : Setting Unit where
  code := lackingCode output
  worker := firstWorker
  env := defaultEnv
  clock now := { now := now }

/-- A worker that has scheduled `A`. -/
def lackingSession : Session Unit :=
  { Session.start (.initial ∅) () with scheduledSteps := OrderedSet.empty.add "A" }

/-- `B` is named where its output is a list. -/
theorem lacking_listed_in_full :
    (lackingSetting (.list [.item "b"])).ReportsInFull lackingSession "A" ["B"] :=
  ((lackingSetting (.list [.item "b"])).reportsInFull_iff lackingSession "A" ["B"] (by decide)
    (by decide) rfl rfl fun _ _ => ⟨false, rfl⟩).mpr <|
      .inr ⟨rfl, fun _ _ => ⟨rfl, fun part hpart => ⟨"b", false, List.mem_singleton.mp hpart, rfl⟩⟩⟩

/-- `B` is not named where its output is one target. -/
theorem lacking_single_unnamed :
    ¬(lackingSetting (.item "b")).ReportsInFull lackingSession "A" ["B"] := by
  rintro ⟨result, -, hqueue, hfull⟩
  have hfinal : (((lackingSetting (.item "b")).runStep "A").final lackingSession).stepResultQueue =
      [] ++ [(lackingCode (.item "b")).failedResult "A" .notIterable []] := by
    decide
  obtain rfl := List.singleton_inj.mp (List.append_cancel_left (hfinal.symm.trans hqueue))
  obtain ⟨-, -, hnames, -⟩ := hfull (List.cons_ne_nil _ _)
  cases hnames

end Trun
