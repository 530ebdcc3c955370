import Trun.Scheduler.Transitions
import Trun.Scheduler.Visiting

/-!
# What any request does

`Handles` adds to `Serves` the requests that do not come from a worker at work: a user
who marks, forgives or re-enables a step or disables a worker, and the state file.
-/

namespace Trun

open Program

namespace Scheduler

variable {s t : Scheduler} {env : Env} {moment : Moment} {ref : Ref}

/-- What `set_status` with a configuration does to a step of the table. -/
structure Settles (config : Config) (now : Time) (ref : Ref) (newStatus : Status)
    (s t : Scheduler) : Prop where
  index : t.Indexed
  same : SameTables s t
  object : ∀ other, t.stepAt other = s.settled (some config) now ref newStatus other

/-- What `re_enable` with a configuration does to a disabled step of the table. -/
structure ReEnables (config : Config) (now : Time) (ref : Ref) (s t : Scheduler) : Prop where
  index : t.Indexed
  same : SameTables s t
  object : ∀ other, t.stepAt other =
    if other = ref then (s.stepAt ref).reEnabled config now else s.stepAt other

/-- What a request may come to. -/
inductive Handles (env : Env) (s : Scheduler) :
    Event → Except Raised Response → Scheduler → Prop where
  | serves {event : Event} {outcome : Except Raised Response} {t : Scheduler}
      (hserves : Serves env s event outcome t) : Handles env s event outcome t
  | marks {moment : Moment} {id : StepId} {ref : Ref} {t : Scheduler}
      (hget : s.getStep id = some ref)
      (hsettles : Settles env.config moment.now ref .done s t) :
      Handles env s ⟨moment, .markAsDone id⟩ (.ok .nothing) t
  | forgives {moment : Moment} {id : StepId} {ref : Ref} {t : Scheduler}
      (hget : s.getStep id = some ref) (hfailed : (s.stepAt ref).status = .failed)
      (hsettles : Settles env.config moment.now ref .pending s t) :
      Handles env s ⟨moment, .forgiveFailures id⟩ (.ok .nothing) t
  | reEnables {moment : Moment} {id : StepId} {ref : Ref} {t : Scheduler}
      (hget : s.getStep id = some ref) (hdisabled : (s.stepAt ref).status = .disabled)
      (hreEnables : ReEnables env.config moment.now ref s t) :
      Handles env s ⟨moment, .reEnableStep id⟩ (.ok .nothing) t
  | idle {event : Event} : Handles env s event (.ok .nothing) s
  | disables {moment : Moment} {worker : WorkerId} :
      Handles env s ⟨moment, .disableWorker worker⟩ (.ok .nothing)
        (s.disableWorker moment.now worker)
  | dumps {moment : Moment} : Handles env s ⟨moment, .dump⟩ (.ok .nothing) s.dump
  | loads {moment : Moment} : Handles env s ⟨moment, .load⟩ (.ok .nothing) s.load

theorem setStatus_settles (config : Config) (now : Time) (hindex : s.Indexed)
    (hfiled : s.Filed ref) (newStatus : Status) :
    ∃ t, (setStatus now ref newStatus (some config)).exec s = (.ok (), t) ∧
      Settles config now ref newStatus s t := by
  obtain ⟨t, hrun, htindex, htsame, htsteps⟩ :=
    setStatus_spec hindex hfiled now newStatus (some config) (by simp)
  exact ⟨t, hrun, htindex, htsame, htsteps⟩

/-- A request that acts on the step with a given id where it meets a condition. -/
theorem handled_onStep {event : Event} {id : StepId} (condition : Step → Prop)
    [DecidablePred condition] (body : Ref → SchedulerM Unit)
    (hserve : serve env event.moment event.request = (do
      (do
        let s ← get
        match s.getStep id with
        | none => pure ()
        | some ref => if condition (s.stepAt ref) then body ref else pure () : SchedulerM Unit)
      pure .nothing))
    (hbody : ∀ ref, s.getStep id = some ref → condition (s.stepAt ref) →
      ∃ t, (body ref).exec s = (.ok (), t) ∧ Handles env s event (.ok .nothing) t) :
    Handles env s event (env.outcome s event) (env.after s event) := by
  have hhandled : ∀ {program : SchedulerM Unit} {t : Scheduler},
      serve env event.moment event.request = (do program; pure .nothing : SchedulerM Response) →
      program.exec s = (.ok (), t) → Handles env s event (.ok .nothing) t →
      Handles env s event (env.outcome s event) (env.after s event) := by
    intro program t hserve hrun hhandles
    have hexec := exec_reply (fun _ : Unit => Response.nothing) hrun
    unfold Env.after Env.outcome
    rw [hserve, Program.result, Program.final, hexec]
    exact hhandles
  cases hget : s.getStep id with
  | none =>
      refine hhandled hserve ?_ .idle
      rw [exec_get_bind, hget]
      rfl
  | some ref =>
      by_cases hcondition : condition (s.stepAt ref)
      · obtain ⟨t, hrun, hhandles⟩ := hbody ref hget hcondition
        refine hhandled hserve ?_ hhandles
        rw [exec_get_bind, hget]
        dsimp only
        rw [if_pos hcondition]
        exact hrun
      · refine hhandled hserve ?_ .idle
        rw [exec_get_bind, hget]
        dsimp only
        rw [if_neg hcondition]
        rfl

/-- On a sound state that is all. -/
theorem Sound.handles {event : Event} (hsound : s.Sound)
    (hhands : HandsOutFiledSteps env s event) :
    Handles env s event (env.outcome s event) (env.after s event) := by
  by_cases hworkers : event.request.isWorkers = true
  · exact .serves (hsound.serves hworkers hhands)
  obtain ⟨moment, request⟩ := event
  cases request with
  | markAsDone id =>
      refine handled_onStep (fun step => step.status.canBeMarkedDone = true)
        (fun ref => Trun.setStatus moment.now ref .done (some env.config)) rfl fun ref hget _ => ?_
      obtain ⟨t, hrun, hsettles⟩ := setStatus_settles env.config moment.now hsound.index
        (hsound.index.filed hget) .done
      exact ⟨t, hrun, .marks hget hsettles⟩
  | forgiveFailures id =>
      refine handled_onStep (fun step => step.status = .failed)
        (fun ref => Trun.setStatus moment.now ref .pending (some env.config)) rfl
        fun ref hget hfailed => ?_
      obtain ⟨t, hrun, hsettles⟩ := setStatus_settles env.config moment.now hsound.index
        (hsound.index.filed hget) .pending
      exact ⟨t, hrun, .forgives hget hfailed hsettles⟩
  | reEnableStep id =>
      refine handled_onStep
        (fun step => step.status = .disabled ∧ step.disabledByScheduler = true)
        (fun ref => reEnable env.config moment.now ref) rfl fun ref hget hdisabled => ?_
      obtain ⟨t, hrun, hindex, hsame, hsteps⟩ := reEnable_writes env.config moment.now
        hsound.index (hsound.index.filed hget) hdisabled.1
      refine ⟨t, hrun, .reEnables hget hdisabled.1 ⟨hindex, hsame, fun other => ?_⟩⟩
      rw [hsteps, Function.update_apply]
  | disableWorker worker => exact .disables
  | dump => exact .dumps
  | load => exact .loads
  | _ => exact absurd rfl hworkers

/-! ## The beginning of `get_work` -/

theorem received_pruned (hstored : s.Stored) (hretry : s.Retriable) (env : Env) (moment : Moment)
    (args : GetWorkArgs) (hprune : env.config.pruneOnGetWork = true) :
    ∃ pruned, (prune env.config moment.now).exec s = (.ok (), pruned) ∧
      env.received s moment args = pruned.updateWorker moment.now args.worker true := by
  obtain ⟨pruned, hrun, -⟩ := prune_spec hstored hretry env.config moment.now
  refine ⟨pruned, hrun, ?_⟩
  unfold Env.received receiveRequest
  rw [if_pos hprune, Program.final, exec_bind_ok hrun]
  rfl

theorem received_unpruned (s : Scheduler) (env : Env) (moment : Moment) (args : GetWorkArgs)
    (hprune : env.config.pruneOnGetWork = false) :
    env.received s moment args = s.updateWorker moment.now args.worker true := by
  unfold Env.received receiveRequest
  rw [hprune]
  rfl

/-! ## The state file -/

theorem Serves.saved {event : Event} {outcome : Except Raised Response}
    (hsound : s.Sound) (hserves : Serves env s event outcome t) : t.saved = s.saved := by
  cases hserves with
  | @adds moment args _ _ hadds =>
      have hreceived := (receiveStep_extends hsound.stored env.config moment args).saved
      exact (hadds.extends (receiveStep_stored hsound.stored env.config moment args)).saved.trans
        hreceived
  | works _ hworks => exact hworks.saved
  | prunes hprunes => exact hprunes.saved
  | rests _ hrests => exact hrests.saved

/-- Only `dump` writes the state file. -/
theorem Handles.saved {event : Event} {outcome : Except Raised Response}
    (hlasting : Lasting Sound s) (hhandles : Handles env s event outcome t) :
    t.saved = s.saved ∨ t = s.dump := by
  cases hhandles with
  | serves hserves => exact .inl (hserves.saved hlasting.1)
  | marks _ hsettles => exact .inl hsettles.same.saved
  | forgives _ _ hsettles => exact .inl hsettles.same.saved
  | reEnables _ _ hreEnables => exact .inl hreEnables.same.saved
  | idle => exact .inl rfl
  | disables => exact .inl (hlasting.1.disableWorker_extends _ _).saved
  | dumps => exact .inr rfl
  | loads => exact .inl (saved_load hlasting)

/-- States with the same objects, rows and workers. -/
structure SameContents (s t : Scheduler) : Prop where
  heap : t.heap = s.heap
  nextRef : t.nextRef = s.nextRef
  steps : t.steps = s.steps
  activeWorkers : t.activeWorkers = s.activeWorkers

/-- An invariant of sound states that reads the objects, the rows and the workers lasts
through `dump` and `load` if it lasts through the other requests. -/
theorem lasting_after {invariant : Scheduler → Prop}
    (hcontents : ∀ {u v : Scheduler}, invariant u → v.Indexed → SameContents u v → invariant v)
    (hsound : ∀ {u : Scheduler}, invariant u → u.Sound) {event : Event}
    (hlasting : Lasting invariant s) (hhands : HandsOutFiledSteps env s event)
    (hstep : event.request ≠ .load → event.request ≠ .dump → invariant (env.after s event)) :
    Lasting invariant (env.after s event) := by
  have hsounds : Lasting Sound s := ⟨hsound hlasting.1, fun saved h => by
    obtain ⟨u, hu, rfl⟩ := hlasting.2 saved h
    exact ⟨u, hsound hu, rfl⟩⟩
  have hinvariant : invariant (env.after s event) := by
    by_cases hload : event.request = .load
    · have hafter : env.after s event = s.load := by
        unfold Env.after
        rw [hload]
        rfl
      rw [hafter]
      cases hsaved : s.saved with
      | none =>
          have hsame : s.load = s := by simp only [Scheduler.load, hsaved]
          rw [hsame]
          exact hlasting.1
      | some saved =>
          obtain ⟨u, hu, rfl⟩ := hlasting.2 saved hsaved
          obtain ⟨hheap, hnext, hsteps, hworkers, -⟩ := load_eq hsaved
          exact hcontents hu (load_indexed (hsound hu).index.step_id hsaved)
            ⟨hheap, hnext, hsteps, hworkers⟩
    · by_cases hdump : event.request = .dump
      · have hafter : env.after s event = s.dump := by
          unfold Env.after
          rw [hdump]
          rfl
        rw [hafter]
        exact hcontents hlasting.1 (hsounds.1.dump).index ⟨rfl, rfl, rfl, rfl⟩
      · exact hstep hload hdump
  refine ⟨hinvariant, fun saved h => ?_⟩
  rcases (hsounds.1.handles hhands).saved hsounds with hsaved | hdumped
  · rw [hsaved] at h
    exact hlasting.2 saved h
  · rw [hdumped] at h
    exact ⟨s, hlasting.1, (Option.some.inj h).symm⟩

end Scheduler

end Trun
