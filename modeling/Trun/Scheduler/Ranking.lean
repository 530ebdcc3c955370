import Trun.Scheduler.IndexRuns
import Trun.Scheduler.Transitions

/-!
# Priorities of dependencies

`add_step` passes the priority of a step on to the dependencies that have a row.
A dependency without one gets it with its row, which is too late where a step of
higher priority listed it before and nobody created a placeholder.
-/

namespace Trun

open Program Scheduler

namespace Scheduler

variable {s t : Scheduler} {config : Config} {moment : Moment} {args : AddStepArgs} {ref : Ref}
variable {enabled : Bool}

/-- Every step ranks at most as high as what it depends on. -/
def Descends (s : Scheduler) : Prop :=
  ∀ ref ∈ s.activeSteps, s.Reaches (s.stepAt ref).priority ref

/-- No step that lists the id ranks above the priority. -/
def WantedUpTo (s : Scheduler) (id : StepId) (priority : Int) : Prop :=
  ∀ other ∈ s.activeSteps, id ∈ (s.stepAt other).deps → (s.stepAt other).priority ≤ priority

/-- States with the same rows, dependencies and priorities. -/
structure SameRanks (s t : Scheduler) : Prop where
  getStep : ∀ id, t.getStep id = s.getStep id
  deps : ∀ ref, (t.stepAt ref).deps = (s.stepAt ref).deps
  priority : ∀ ref, (t.stepAt ref).priority = (s.stepAt ref).priority

theorem SameRanks.reaches (hsame : SameRanks s t) {raised : Int} {other : Ref}
    (hreaches : s.Reaches raised other) : t.Reaches raised other := by
  intro dep hdep target hget
  rw [hsame.deps] at hdep
  rw [hsame.getStep] at hget
  rw [hsame.priority]
  exact hreaches dep hdep target hget

theorem SameRanks.mem_activeSteps (hsame : SameRanks s t) {other : Ref} :
    other ∈ t.activeSteps ↔ other ∈ s.activeSteps := by
  simp only [Scheduler.mem_activeSteps, hsame.getStep]

theorem SameRanks.descends (hsame : SameRanks s t) (hdescends : s.Descends) : t.Descends := by
  intro other hother
  rw [hsame.priority]
  exact hsame.reaches (hdescends other (hsame.mem_activeSteps.mp hother))

theorem sameRanks_registerWorker (s : Scheduler) (config : Config) (moment : Moment)
    (args : AddStepArgs) (ref : Ref) (enabled : Bool) :
    SameRanks s (s.registerWorker config moment args ref enabled) := by
  have hstep := stepAt_registerWorker config moment args ref s enabled
  refine ⟨fun id => ?_, fun other => ?_, fun other => ?_⟩
  · unfold registerWorker
    dsimp only
    split <;> rfl
  · rw [hstep]
    split
    · rename_i hother
      rw [hother]
      rfl
    · rfl
  · rw [hstep]
    split
    · rename_i hother
      rw [hother]
      rfl
    · rfl

/-- The state in which `updatePriority` is called: the new rows are placeholders. -/
structure Held (config : Config) (moment : Moment) (args : AddStepArgs) (ref : Ref)
    (enabled : Bool) (s t : Scheduler) : Prop where
  fresh : ∀ {id other}, t.getStep id = some other → s.getStep id = some other ∨
    (args.holds enabled = true ∧ id ∈ ((s.stepAt ref).declare moment args).deps ∧
      s.getStep id = none ∧ (t.stepAt other).deps = ∅)
  target : (t.stepAt ref).deps = ((s.stepAt ref).declare moment args).deps
  deps : ∀ other < s.nextRef, other ≠ ref → (t.stepAt other).deps = (s.stepAt other).deps
  priority : ∀ other < s.nextRef, (t.stepAt other).priority = (s.stepAt other).priority

theorem Declares.held (hdeclares : Declares config moment args ref s t) (href : ref < s.nextRef)
    (enabled : Bool) :
    Held config moment args ref enabled s (t.addStakeholders config moment args ref enabled) := by
  have hholds := addStakeholders_spec config moment args ref hdeclares.stored.rows_allocated
    enabled
  set base := if args.holds enabled = true then
    t.updateStep ref fun step => step.addStakeholder args.worker else t with hbase
  have hbaseStep : ∀ other, (base.stepAt other).deps = (t.stepAt other).deps ∧
      (base.stepAt other).priority = (t.stepAt other).priority := by
    intro other
    rw [hbase]
    split
    · rw [stepAt_updateStep]
      split
      · rename_i hother
        rw [hother]
        exact ⟨rfl, rfl⟩
      · exact ⟨rfl, rfl⟩
    · exact ⟨rfl, rfl⟩
  have hbaseSame : SameTables t base := by
    rw [hbase]
    split
    · exact sameTables_updateStep ..
    · exact .refl t
  have hold : ∀ other < s.nextRef,
      ((t.addStakeholders config moment args ref enabled).stepAt other).deps =
        (t.stepAt other).deps ∧
      ((t.addStakeholders config moment args ref enabled).stepAt other).priority =
        (t.stepAt other).priority := by
    intro other hother
    have hlt : other < base.nextRef := by
      rw [hbaseSame.nextRef, hdeclares.same.nextRef]
      exact hother
    have hadded : ∀ (condition : Prop) [Decidable condition],
        (if condition then (base.stepAt other).addStakeholder args.worker
          else base.stepAt other).deps = (t.stepAt other).deps ∧
        (if condition then (base.stepAt other).addStakeholder args.worker
          else base.stepAt other).priority = (t.stepAt other).priority := by
      intro condition _
      split <;> exact hbaseStep other
    rw [hholds.stepAt other hlt]
    exact hadded _
  have htarget : (t.stepAt ref).deps = ((s.stepAt ref).declare moment args).deps := by
    have hreport : ((s.openedStep moment args ref).report config moment args).deps =
        (s.stepAt ref).deps :=
      (congrArg Step.deps (Step.report_plan ..) :).trans
        (openedStep_plan_fields s moment args ref).2.2.2.2.1
    have hdeps : (t.stepAt ref).deps =
        (((s.openedStep moment args ref).report config moment args).declare moment args).deps :=
      (congrArg Step.deps hdeclares.target :)
    rw [hdeps]
    unfold Step.declare
    dsimp only
    rw [hreport]
  refine ⟨fun {id other} hget => ?_, (hold ref href).1.trans htarget, fun other hother hne => ?_,
    fun other hother => (hold other hother).2.trans (hdeclares.priority other)⟩
  · rcases hholds.fresh hget with hrow | ⟨hmem, hnone, -, hstep⟩
    · rw [hbaseSame.getStep, hdeclares.same.getStep] at hrow
      exact .inl hrow
    · rw [hbaseSame.getStep, hdeclares.same.getStep] at hnone
      by_cases hcondition : args.holds enabled = true
      · rw [if_pos hcondition, htarget] at hmem
        exact .inr ⟨hcondition, hmem, hnone, by rw [hstep]; rfl⟩
      · rw [if_neg hcondition] at hmem
        cases hmem
  · have hcore := hdeclares.other other hne
    have hdeps : (t.stepAt other).deps = (s.stepAt other).deps := by
      by_cases hpasses : s.PassesOn moment args ref other
      · rw [if_pos hpasses] at hcore
        have hsettled : (t.stepAt other).deps = ((s.stepAt other).settle (some config) moment.now
          args.newStatus).withoutBatch.deps := (congrArg Step.deps hcore :)
        rw [hsettled]
        exact (congrArg Step.deps (Step.settle_plan ..) :)
      · rw [if_neg hpasses] at hcore
        exact (congrArg Step.deps hcore :)
    exact (hold other hother).1.trans hdeps

/-- An accepted request, where the step and its dependencies are ranked last. -/
theorem acceptStep_descends (hstored : s.Stored) (hfiled : s.Filed ref)
    (hclaim : ¬s.claimRaises args ref)
    (hother : ∀ other ∈ s.activeSteps, other ≠ ref → s.Reaches (s.stepAt other).priority other)
    (hnew : args.holds enabled = true → ∀ id ∈ ((s.stepAt ref).declare moment args).deps,
      s.getStep id = none → s.WantedUpTo id (max args.priority (s.stepAt ref).priority)) :
    ∃ t, (acceptStep config moment args ref enabled).exec s = (.ok (), t) ∧ t.Descends ∧
      ∀ other < s.nextRef, (s.stepAt other).priority ≤ (t.stepAt other).priority := by
  have href := hstored.filed_lt hfiled
  obtain ⟨declared, raised, hrun, hdeclares, hcarries, hvalue, hreaches⟩ :=
    acceptStep_run config moment hstored hfiled hclaim enabled
  have hheld := hdeclares.held href enabled
  set held := declared.addStakeholders config moment args ref enabled with hheldDef
  rw [hheld.priority ref href] at hcarries hvalue
  have hranks := sameRanks_registerWorker raised config moment args ref enabled
  refine ⟨_, hrun, hranks.descends fun other hmem => ?_, fun other hlt => ?_⟩
  · by_cases hne : other = ref
    · rw [hne]
      exact hreaches
    · rcases hcarries.changed other with hsame | ⟨hraised, hclosed⟩
      · obtain ⟨id, hget⟩ := (raised.mem_activeSteps other).mp hmem
        rw [hcarries.raises.same.getStep] at hget
        intro dep hdep target htarget
        rw [hcarries.raises.deps] at hdep
        rcases hheld.fresh hget with hold | ⟨-, -, -, hempty⟩
        · have hlt := hstored.allocated hold
          have hactive : other ∈ s.activeSteps := (s.mem_activeSteps other).mpr ⟨id, hold⟩
          rw [hheld.deps other hlt hne] at hdep
          rw [hsame, hheld.priority other hlt]
          rw [hcarries.raises.same.getStep] at htarget
          rcases hheld.fresh htarget with holdTarget | ⟨hcondition, hlisted, hnone, -⟩
          · -- both were there before: the dependency has not fallen
            calc (s.stepAt other).priority ≤ (s.stepAt target).priority :=
                  hother other hactive hne dep hdep target holdTarget
              _ = (held.stepAt target).priority :=
                  (hheld.priority target (hstored.allocated holdTarget)).symm
              _ ≤ (raised.stepAt target).priority := hcarries.raises.priority_le target
          · -- a placeholder: it is a dependency of the step as well
            calc (s.stepAt other).priority ≤ max args.priority (s.stepAt ref).priority :=
                  hnew hcondition dep hlisted hnone other hactive hdep
              _ = (raised.stepAt ref).priority := hvalue.symm
              _ ≤ (raised.stepAt target).priority := by
                  apply hreaches dep
                  · rw [hcarries.raises.deps, hheld.target]
                    exact hlisted
                  · rw [hcarries.raises.same.getStep]
                    exact htarget
        · rw [hempty] at hdep
          cases hdep
      · rw [hraised]
        exact hclosed
  · rw [hranks.priority]
    exact (hheld.priority other hlt).symm.le.trans (hcarries.raises.priority_le other)

/-- A step that has just been created is not reported on in vain. -/
theorem defaultStep_accepted (hstored : s.Stored) (hnew : s.getStep args.stepId = none)
    (hget : (s.receiveStep config moment args).getStep args.stepId = some ref) :
    ref = s.nextRef ∧
      (s.receiveStep config moment args).stepAt ref = args.defaultStep config moment ∧
      ((s.receiveStep config moment args).stepAt ref).dropsClaim config moment args
        ((s.receiveStep config moment args).workerAt args.worker).enabled = false := by
  have hreceipt := hstored.receipt config moment args
  rcases hreceipt.fresh hget with hold | ⟨-, -, href, hstep⟩
  · rw [hnew] at hold
    cases hold
  · refine ⟨href, hstep, ?_⟩
    have hgreets := greets_updateWorker s moment.now args.worker false
    have henabled : ((s.receiveStep config moment args).workerAt args.worker).enabled = true := by
      rw [hreceipt.enabled]
      by_contra hdisabled
      have hsame : ((s.updateWorker moment.now args.worker false).workerAt
          args.worker).enabled = (s.workerAt args.worker).enabled := by
        simp only [Worker.enabled, (hgreets.worker args.worker).2.2]
      unfold receiveStep at hget
      dsimp only at hget
      rw [hsame, if_neg hdisabled, hgreets.getStep, hnew] at hget
      cases hget
    rw [hstep, henabled]
    simp [Step.dropsClaim, AddStepArgs.defaultStep, Step.make]

/-- The rows that the call finds, before and after the beginning of `add_step`. -/
theorem receiveStep_descends (hstored : s.Stored) (hdescends : s.Descends)
    (hwanted : ∀ ref, (s.receiveStep config moment args).getStep args.stepId = some ref →
      s.getStep args.stepId = none → s.WantedUpTo args.stepId args.priority) :
    ∀ other ∈ (s.receiveStep config moment args).activeSteps,
      (s.receiveStep config moment args).getStep args.stepId ≠ some other ∨
        s.getStep args.stepId ≠ none →
      (s.receiveStep config moment args).Reaches
        ((s.receiveStep config moment args).stepAt other).priority other := by
  intro other hmem hold dep hdep target htarget
  have hreceipt := hstored.receipt config moment args
  obtain ⟨id, hget⟩ := (mem_activeSteps ..).mp hmem
  rcases hreceipt.fresh hget with hrow | ⟨rfl, hnone, -, -⟩
  · have hactive : other ∈ s.activeSteps := (s.mem_activeSteps other).mpr ⟨id, hrow⟩
    rw [hreceipt.stepAt other (hstored.allocated hrow)] at hdep ⊢
    rcases hreceipt.fresh htarget with hrow' | ⟨rfl, hnone, -, hstep⟩
    · rw [hreceipt.stepAt target (hstored.allocated hrow')]
      exact hdescends other hactive dep hdep target hrow'
    · rw [hstep]
      exact hwanted target htarget hnone other hactive hdep
  · rcases hold with hne | hknown
    · exact absurd hget hne
    · exact absurd hnone hknown

end Scheduler

namespace Env

variable (env : Env)

/-- A call of `add_step` gives every row that it creates at least the priority of the steps
that list the id already.  Where it creates the step and then raises, the dependencies have
at least the priority of the step. -/
def RanksNewRows (s : Scheduler) (event : Event) : Prop :=
  match event.request with
  | .addStep args =>
      let received := s.receiveStep env.config event.moment args
      ∀ ref ∈ received.getStep args.stepId,
        (s.getStep args.stepId = none → s.WantedUpTo args.stepId args.priority) ∧
        ((received.stepAt ref).dropsClaim env.config event.moment args
            (received.workerAt args.worker).enabled = false →
          if received.claimRaises args ref then
            s.getStep args.stepId = none → received.Reaches args.priority ref
          else
            args.holds (received.workerAt args.worker).enabled = true →
              ∀ id ∈ ((received.stepAt ref).declare event.moment args).deps,
                received.getStep id = none →
                  received.WantedUpTo id (max args.priority (received.stepAt ref).priority))
  | _ => False

instance (s : Scheduler) (id : StepId) (priority : Int) :
    Decidable (s.WantedUpTo id priority) := by
  unfold Scheduler.WantedUpTo; infer_instance

instance (s : Scheduler) (raised : Int) (ref : Ref) : Decidable (s.Reaches raised ref) :=
  inferInstanceAs (Decidable (∀ dep ∈ (s.stepAt ref).deps.elems, ∀ target ∈ s.getStep dep,
    raised ≤ (s.stepAt target).priority))

instance (s : Scheduler) : Decidable s.Descends := by
  unfold Scheduler.Descends; infer_instance

instance (s : Scheduler) (event : Event) : Decidable (env.RanksNewRows s event) := by
  obtain ⟨moment, request⟩ := event
  induction request using Request.casesOn <;> dsimp only [RanksNewRows] <;> infer_instance

/-- Priorities flow to the dependencies, and the call ends and lowers none. -/
def KeepsRanks (s : Scheduler) (event : Event) : Prop :=
  (env.after s event).Descends ∧ env.raised s event ≠ some .recursionLimit ∧
    ∀ id ref, s.getStep id = some ref → (env.after s event).getStep id = some ref ∧
      (s.stepAt ref).priority ≤ ((env.after s event).stepAt ref).priority

/-- A start that raises has written the step, but neither rows nor priorities. -/
theorem sameRanks_failed (s : Scheduler) (args : AddStepArgs) (ref : Ref) :
    Scheduler.SameRanks s ((s.joinStep args ref).updateStep ref fun step =>
      { step with workerRunning := some args.worker }) := by
  refine ⟨fun _ => rfl, fun other => ?_, fun other => ?_⟩ <;>
  · by_cases hother : other = ref
    · subst hother
      simp [Scheduler.joinStep, Step.joinBatch, Step.fillPlaceholder]
    · simp [Scheduler.joinStep, hother]

theorem keepsRanks_of_ranksNewRows {s : Scheduler} {event : Event} (hsound : s.Sound)
    (hdescends : s.Descends) (hranks : env.RanksNewRows s event) : env.KeepsRanks s event := by
  obtain ⟨moment, request⟩ := event
  cases request with
  | addStep args =>
      obtain ⟨outcome, hadds, houtcome⟩ := hsound.after_addStep env moment args
      have hreceipt := hsound.stored.receipt env.config moment args
      have hreceived := receiveStep_descends hsound.stored hdescends
        fun ref hget => (hranks ref hget).1
      have haccept := @addStep_exec env.config moment args s
      have hcreated := fun ref => @defaultStep_accepted s env.config moment args ref hsound.stored
      have hranks := fun ref hget => (hranks ref hget).2
      set received := s.receiveStep env.config moment args with hreceivedDef
      have hrest : ∀ {ref}, received.getStep args.stepId = some ref →
          ∀ other ∈ received.activeSteps, other ≠ ref →
            received.Reaches (received.stepAt other).priority other :=
        fun hget other hmem hne => hreceived other hmem
          (.inl fun h => hne (Option.some.inj (h.symm.trans hget)))
      have hkept : ∀ {t : Scheduler}, t.Descends →
          (∀ {id ref}, received.getStep id = some ref → t.getStep id = some ref) →
          (∀ other < received.nextRef,
            (received.stepAt other).priority ≤ (t.stepAt other).priority) →
          t.Descends ∧ ∀ id ref, s.getStep id = some ref → t.getStep id = some ref ∧
            (s.stepAt ref).priority ≤ (t.stepAt ref).priority := by
        intro t ht hrows hpriority
        refine ⟨ht, fun id ref hget => ⟨hrows (hreceipt.keeps hget), ?_⟩⟩
        have hlt := hsound.stored.allocated hget
        rw [← hreceipt.stepAt ref hlt]
        exact hpriority ref (hlt.trans_le hreceipt.nextRef_le)
      unfold KeepsRanks raised
      rw [houtcome]
      generalize hafter : env.after s ⟨moment, .addStep args⟩ = t at hadds ⊢
      cases hadds with
      | dropped hdropped =>
          have hall : received.Descends := by
            intro other hmem
            refine hreceived other hmem ?_
            by_contra hnot
            rw [not_or, not_not, not_not] at hnot
            have hclaim := (hcreated other hnot.2 hnot.1).2.2
            rw [hdropped other hnot.1] at hclaim
            cases hclaim
          have hends := hkept hall (fun h => h) fun _ _ => le_refl _
          exact ⟨hends.1, fun h => (by cases h), hends.2⟩
      | @accepted ref _ hget hclaim hstarts haccepts =>
          have hnew := hranks ref hget hclaim
          rw [if_neg hstarts] at hnew
          obtain ⟨t', hrun, hall, hpriority⟩ := acceptStep_descends hreceipt.stored
            (hreceipt.stored.index.filed hget) hstarts (hrest hget) hnew
          have hserve := exec_reply (fun _ => Response.nothing) ((haccept hget hclaim).trans hrun)
          obtain rfl : t' = t := (congrArg Prod.snd hserve :).symm.trans hafter
          have hends := hkept hall haccepts.keeps hpriority
          exact ⟨hends.1, fun h => (by cases h), hends.2⟩
      | @failed ref error hget hclaim hraises herror =>
          have hsame := sameRanks_failed received args ref
          have hown : s.getStep args.stepId = none → received.Reaches args.priority ref := by
            have hnew := hranks ref hget hclaim
            rwa [if_pos hraises] at hnew
          have hall : received.Descends := by
            intro other hmem
            by_cases hcreating : s.getStep args.stepId = none ∧ other = ref
            · obtain ⟨hnone, rfl⟩ := hcreating
              rw [(hcreated other hnone hget).2.1]
              exact hown hnone
            · refine hreceived other hmem ?_
              rw [hget]
              by_cases hother : other = ref
              · exact .inr fun hnone => hcreating ⟨hnone, hother⟩
              · exact .inl fun h => hother (Option.some.inj h).symm
          have hends := hkept (hsame.descends hall) (fun h => h) fun other _ =>
            (hsame.priority other).symm.le
          refine ⟨hends.1, fun h => ?_, hends.2⟩
          rcases herror with rfl | rfl <;> cases h
  | _ => exact absurd hranks id

/-- In every run of `add_step` calls that ranks new rows, priorities flow to the
dependencies in every state. -/
theorem ranks_descend_along {resources : Resources} {events : List Event}
    (hranks : Along env.after env.RanksNewRows (.initial resources) events) :
    (Scheduler.initial resources).Descends ∧
      Along env.after env.KeepsRanks (.initial resources) events := by
  have hempty : (Scheduler.initial resources).Descends := by
    intro ref hmem
    obtain ⟨id, hget⟩ := (mem_activeSteps ..).mp hmem
    cases hget
  have hhands : ∀ s event, env.RanksNewRows s event → HandsOutFiledSteps env s event := by
    rintro s ⟨moment, request⟩ hevent
    cases request with
    | addStep args => trivial
    | _ => exact absurd hevent id
  have hstep : ∀ s event, Lasting Sound s ∧ s.Descends → env.RanksNewRows s event →
      Lasting Sound (env.after s event) ∧ (env.after s event).Descends := by
    intro s event hs hevent
    exact ⟨(Sound.after hs.1 (hhands s event hevent)).1,
      (env.keepsRanks_of_ranksNewRows hs.1.1 hs.2 hevent).1⟩
  refine ⟨hempty, ?_⟩
  apply Along.mono _ (along_invariant env.after _ (fun s => Lasting Sound s ∧ s.Descends) hstep
    ⟨initial_sound resources, hempty⟩ hranks)
  rintro s event ⟨⟨hlasting, hdescends⟩, hevent⟩
  exact env.keepsRanks_of_ranksNewRows hlasting.1 hdescends hevent

end Env

/-- An assistant adds a step and only then its dependency. -/
def assistedRequest : List Event :=
  [ requestAt 1 (.addStep { worker := firstWorker, stepId := "a", deps := some ["b"]
                            priority := 10, assistant := true }) ]

/-- The dependency is left with a lower priority than the step. -/
theorem assisted_dependency_ranks_low :
    ¬defaultEnv.KeepsRanks (defaultEnv.run (.initial ∅) assistedRequest)
      (requestAt 2 (schedules secondWorker "b")) := fun hkeeps =>
  absurd hkeeps.1 (by decide +kernel)

/-- Two steps that depend on each other, and one that joins them later. -/
def cyclicRun : List Event :=
  [ requestAt 1 (.addStep { worker := firstWorker, stepId := "a", deps := some ["b"]
                            priority := 10 }),
    requestAt 2 (.addStep { worker := secondWorker, stepId := "b", deps := some ["a"]
                            priority := 3 }),
    requestAt 3 (.addStep { worker := secondWorker, stepId := "c", newDeps := some ["b", "d"]
                            priority := 20 }) ]

theorem cyclic_run_descends :
    (Scheduler.initial ∅).Descends ∧
      Along defaultEnv.after defaultEnv.KeepsRanks (.initial ∅) cyclicRun :=
  defaultEnv.ranks_descend_along (by decide +kernel)

end Trun
