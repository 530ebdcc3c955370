import Trun.Program.Windows
import Trun.Scheduler.Allocation
import Trun.Scheduler.IndexRuns

/-!
# The failure window

A step keeps the failures of its window in a queue that a query shortens, and its first failure
apart from them.  `Tracked` says what the two keep of the history of the step, under whatever
requests and however they end: enough for every verdict of `set_status` on a failure to be the
one that the full history gives.
-/

namespace Trun

open Program

/-! ## Histories -/

namespace Mark

/-- The failures since the last clearing, with the policies in force. -/
def sinceClearing (marks : List Mark) : List (Time × RetryPolicy) :=
  marks.foldl
    (fun failures mark =>
      match mark with
      | .failed time policy => failures ++ [(time, policy)]
      | .ended .. => failures
      | .cleared => []) []

def failureTimes (marks : List Mark) : List Time := (sinceClearing marks).map Prod.fst

/-- The failures since the last clearing all counted under the policy. -/
def UnderPolicy (policy : RetryPolicy) (marks : List Mark) : Prop :=
  ∀ failure ∈ sinceClearing marks, failure.2 = policy

section Append

variable (marks : List Mark) (time : Time) (policy : RetryPolicy)

@[simp] theorem sinceClearing_failed :
    sinceClearing (marks ++ [.failed time policy]) =
      sinceClearing marks ++ [(time, policy)] := by
  simp [sinceClearing]

@[simp] theorem sinceClearing_ended (status : Status) (disabled retry : Option Time) :
    sinceClearing (marks ++ [.ended status disabled retry]) = sinceClearing marks := by
  simp [sinceClearing]

@[simp] theorem sinceClearing_cleared : sinceClearing (marks ++ [.cleared]) = [] := by
  simp [sinceClearing]

@[simp] theorem failureTimes_failed :
    failureTimes (marks ++ [.failed time policy]) = failureTimes marks ++ [time] := by
  simp [failureTimes]

@[simp] theorem failureTimes_ended (status : Status) (disabled retry : Option Time) :
    failureTimes (marks ++ [.ended status disabled retry]) = failureTimes marks := by
  simp [failureTimes]

@[simp] theorem failureTimes_cleared : failureTimes (marks ++ [.cleared]) = [] := by
  simp [failureTimes]

theorem underPolicy_failed {other : RetryPolicy} :
    UnderPolicy other (marks ++ [.failed time policy]) ↔
      UnderPolicy other marks ∧ policy = other := by
  simp only [UnderPolicy, sinceClearing_failed, List.forall_mem_append, List.forall_mem_singleton]

end Append

end Mark

open Mark

/-- The failures in the window reach the limit, or the first of all is too long ago. -/
def RetryPolicy.Excessive (policy : RetryPolicy) (now : Time) (failures : List Time) : Prop :=
  policy.retryCount ≤
      ((failures.filter fun time => now - policy.disableWindow ≤ time).length : Int) ∨
    ∃ first ∈ failures.head?, first + policy.disableHardTimeout ≤ now

instance (policy : RetryPolicy) (now : Time) (failures : List Time) :
    Decidable (policy.Excessive now failures) := by
  unfold RetryPolicy.Excessive; infer_instance

/-- The verdict on a failure: the step is disabled from now on where the failures are
excessive, and otherwise failed until the retry delay is over. -/
structure RetryPolicy.Judges (policy : RetryPolicy) (config : Config) (now : Time)
    (failures : List Time) (status : Status) (disabled retry : Option Time) : Prop where
  disables_iff : status = .disabled ∧ disabled = some now ↔ policy.Excessive now failures
  retries : ¬policy.Excessive now failures →
    status = .failed ∧ retry = some (now + config.retryDelay)

/-- The verdicts of a history are right wherever one policy was in force. -/
def Mark.RightVerdicts (config : Config) (marks : List Mark) : Prop :=
  ∀ before after now policy status disabled retry,
    marks = before ++ .failed now policy :: .ended status disabled retry :: after →
    UnderPolicy policy before →
    policy.Judges config now (failureTimes before ++ [now]) status disabled retry

/-- An entry that ends no failure adds no verdict. -/
theorem Mark.RightVerdicts.append {config : Config} {marks : List Mark} {mark : Mark}
    (hright : RightVerdicts config marks)
    (hmark : ∀ status disabled retry, mark ≠ .ended status disabled retry) :
    RightVerdicts config (marks ++ [mark]) := by
  intro before after now policy status disabled retry heq hpolicy
  rcases List.eq_nil_or_concat after with rfl | ⟨front, last, rfl⟩
  · have hlast := congrArg List.getLast? heq
    simp only [List.getLast?_append, List.getLast?_cons_cons, List.getLast?_singleton,
      Option.some_or, Option.some.injEq] at hlast
    exact absurd hlast (hmark status disabled retry)
  · rw [List.concat_eq_append, ← List.cons_append, ← List.cons_append, ← List.append_assoc] at heq
    exact hright before front now policy status disabled retry
      (List.append_inj_left' heq rfl) hpolicy

/-- An entry that ends a failure adds the verdict on that failure. -/
theorem Mark.RightVerdicts.append_ended {config : Config} {marks : List Mark} {now : Time}
    {policy : RetryPolicy} {status : Status} {disabled retry : Option Time}
    (hright : RightVerdicts config (marks ++ [.failed now policy]))
    (hjudges : UnderPolicy policy marks →
      policy.Judges config now (failureTimes marks ++ [now]) status disabled retry) :
    RightVerdicts config (marks ++ [.failed now policy] ++ [.ended status disabled retry]) := by
  intro before after now' policy' status' disabled' retry' heq hpolicy
  rcases List.eq_nil_or_concat after with rfl | ⟨front, last, rfl⟩
  · have hsplit : before ++ .failed now' policy' :: [.ended status' disabled' retry'] =
        before ++ [.failed now' policy'] ++ [.ended status' disabled' retry'] := by
      rw [List.append_assoc, List.cons_append, List.nil_append]
    rw [hsplit] at heq
    obtain ⟨hfront, hlast⟩ := List.append_inj' heq rfl
    obtain ⟨rfl, hfailed⟩ := List.append_inj' hfront rfl
    cases hlast
    cases hfailed
    exact hjudges hpolicy
  · rw [List.concat_eq_append, ← List.cons_append, ← List.cons_append, ← List.append_assoc] at heq
    exact hright before front now' policy' status' disabled' retry'
      (List.append_inj_left' heq rfl) hpolicy

namespace Step

/-- What a step keeps of its failures, given their history. -/
structure Tracked (config : Config) (clock : Time) (step : Step) : Prop where
  sorted : (failureTimes step.marks).Pairwise (· ≤ ·)
  bounded : ∀ time ∈ failureTimes step.marks, 0 < time ∧ time ≤ clock
  first : step.firstFailureTime = (failureTimes step.marks).head?
  kept : step.failures.Sublist (failureTimes step.marks)
  covers : ∀ policy, UnderPolicy policy step.marks →
    Covers (clock - policy.disableWindow) step.failures (failureTimes step.marks)
  right : RightVerdicts config step.marks

variable {config : Config} {clock now : Time} {step other : Step}

theorem Tracked.congr (htracked : step.Tracked config clock)
    (hledger : other.ledger = step.ledger) : other.Tracked config clock := by
  obtain ⟨hsorted, hbounded, hfirst, hkept, hcovers, hright⟩ := htracked
  obtain ⟨-, hfailures, hsamefirst, hmarks⟩ : other.id = step.id ∧
      other.failures = step.failures ∧ other.firstFailureTime = step.firstFailureTime ∧
      other.marks = step.marks := by simpa [ledger] using hledger
  constructor <;> simp only [hfailures, hsamefirst, hmarks] <;> assumption

theorem Blank.tracked (hblank : step.Blank) : step.Tracked config clock := by
  obtain ⟨hfailures, hfirst, hmarks⟩ : step.failures = [] ∧ step.firstFailureTime = none ∧
      step.marks = [] := by simpa [Blank, ledger] using hblank
  constructor
  · simp [hmarks, failureTimes, sinceClearing]
  · simp [hmarks, failureTimes, sinceClearing]
  · simp [hmarks, hfirst, failureTimes, sinceClearing]
  · simp [hfailures]
  · intro policy _ bound _
    simp [hfailures, hmarks, failureTimes, sinceClearing]
  · intro before after _ _ _ _ _ heq
    simp [hmarks] at heq

theorem Tracked.mono (htracked : step.Tracked config clock) (hle : clock ≤ now) :
    step.Tracked config now where
  sorted := htracked.sorted
  bounded := fun time hmem => by
    obtain ⟨hpositive, hclock⟩ := htracked.bounded time hmem
    exact ⟨hpositive, hclock.trans hle⟩
  first := htracked.first
  kept := htracked.kept
  covers := fun policy hpolicy => (htracked.covers policy hpolicy).mono (Int.sub_le_sub_right hle _)
  right := htracked.right

theorem Tracked.clearFailures (htracked : step.Tracked config clock) :
    step.clearFailures.Tracked config clock where
  sorted := by simp [Step.clearFailures]
  bounded := by simp [Step.clearFailures]
  first := by simp [Step.clearFailures]
  kept := by simp [Step.clearFailures]
  covers := fun policy _ bound _ => by simp [Step.clearFailures]
  right := htracked.right.append fun _ _ _ h => by cases h

theorem Tracked.reEnable (htracked : step.Tracked config clock) :
    step.reEnable.Tracked config clock := by
  have hallowed : ({ step with schedulerDisableTime := none } : Step).Tracked config clock :=
    htracked.congr rfl
  exact hallowed.clearFailures

theorem Tracked.addFailure (htracked : step.Tracked config now) (hnow : 0 < now) :
    (step.addFailure now).Tracked config now where
  sorted := by
    change (failureTimes (step.marks ++ [.failed now step.retryPolicy])).Pairwise (· ≤ ·)
    rw [failureTimes_failed, List.pairwise_append]
    refine ⟨htracked.sorted, List.pairwise_singleton .., fun time hmem last hlast => ?_⟩
    rw [List.mem_singleton.mp hlast]
    exact (htracked.bounded time hmem).2
  bounded := by
    change ∀ time ∈ failureTimes (step.marks ++ [.failed now step.retryPolicy]), _
    rw [failureTimes_failed, List.forall_mem_append]
    exact ⟨htracked.bounded, by simpa using hnow⟩
  first := by
    unfold Step.addFailure
    dsimp only
    rw [failureTimes_failed, htracked.first]
    cases htimes : failureTimes step.marks with
    | nil => rfl
    | cons first rest =>
        -- the first failure came at a positive time, so the test for its truth value holds
        have hfirst : first ≠ 0 :=
          ne_of_gt (htracked.bounded first (htimes ▸ List.mem_cons_self ..)).1
        simp [hfirst]
  kept := by
    change (step.failures ++ [now]).Sublist
      (failureTimes (step.marks ++ [.failed now step.retryPolicy]))
    rw [failureTimes_failed]
    exact htracked.kept.append_right [now]
  covers := fun policy hpolicy => by
    obtain ⟨hbefore, -⟩ := (underPolicy_failed ..).mp hpolicy
    change Covers _ (step.failures ++ [now])
      (failureTimes (step.marks ++ [.failed now step.retryPolicy]))
    rw [failureTimes_failed]
    exact (htracked.covers policy hbefore).append now
  right := htracked.right.append fun _ _ _ h => by cases h

/-- A query under the policy of a counted failure drops nothing that a later one may count. -/
theorem Tracked.forgetOldFailures (htracked : step.Tracked config now)
    (hcounted : (now, step.retryPolicy) ∈ sinceClearing step.marks) :
    (step.forgetOldFailures now).Tracked config now where
  sorted := htracked.sorted
  bounded := htracked.bounded
  first := htracked.first
  kept := (List.dropWhile_sublist _).trans htracked.kept
  covers := fun policy hpolicy => by
    have hsame : step.retryPolicy = policy := hpolicy _ hcounted
    refine (htracked.covers policy hpolicy).dropWhile ?_
    rw [hsame]
  right := htracked.right

theorem Tracked.account (htracked : step.Tracked config now) (hnow : 0 < now)
    (newStatus : Status) : (step.account now newStatus).1.Tracked config now := by
  have hadded := htracked.addFailure hnow
  have hforgot := hadded.forgetOldFailures (by
    change (now, step.retryPolicy) ∈
      sinceClearing (step.marks ++ [.failed now step.retryPolicy])
    simp)
  unfold Step.account
  dsimp only
  split_ifs
  · exact hadded.congr rfl
  · exact hforgot.congr rfl
  · exact hadded
  · exact hforgot
  · exact htracked.congr rfl
  · exact htracked

/-- `has_excessive_failures` tells from what is kept what the history tells. -/
theorem Tracked.hasExcessiveFailures_iff (htracked : step.Tracked config now) (hnow : 0 < now)
    (hpolicy : UnderPolicy step.retryPolicy step.marks) :
    (step.addFailure now).hasExcessiveFailures now = true ↔
      step.retryPolicy.Excessive now (failureTimes step.marks ++ [now]) := by
  have hadded := htracked.addFailure hnow
  have hunder : UnderPolicy step.retryPolicy (step.addFailure now).marks :=
    (underPolicy_failed ..).mpr ⟨hpolicy, rfl⟩
  have htimes : failureTimes (step.addFailure now).marks = failureTimes step.marks ++ [now] :=
    failureTimes_failed ..
  have hlong : (step.addFailure now).failsSinceTooLong now = true ↔
      ∃ first ∈ (failureTimes step.marks ++ [now]).head?,
        first + step.retryPolicy.disableHardTimeout ≤ now := by
    have hsame : (step.addFailure now).retryPolicy = step.retryPolicy := rfl
    rw [failsSinceTooLong, hadded.first, htimes, hsame]
    cases (failureTimes step.marks ++ [now]).head? <;> simp
  have hcount : (step.addFailure now).numFailures now =
      ((failureTimes step.marks ++ [now]).filter fun time =>
        now - step.retryPolicy.disableWindow ≤ time).length := by
    have hqueue := (hadded.covers step.retryPolicy hunder).dropWhile_eq
      (hadded.sorted.sublist hadded.kept)
    rw [htimes] at hqueue
    exact congrArg List.length hqueue
  rw [Step.hasExcessiveFailures, Bool.or_eq_true, decide_eq_true_eq, hlong, hcount]
  exact or_comm

private theorem withStatus_keeps (newStatus : Status) :
    (step.withStatus now newStatus).marks = step.marks ∧
      (step.withStatus now newStatus).schedulerDisableTime = step.schedulerDisableTime := by
  unfold withStatus; split <;> exact ⟨rfl, rfl⟩

private theorem stampIfFailed_keeps (given : Option Config) (combined : Bool)
    (newStatus : Status) :
    (step.stampIfFailed given now combined newStatus).marks = step.marks ∧
      (step.stampIfFailed given now combined newStatus).status = step.status ∧
      (step.stampIfFailed given now combined newStatus).schedulerDisableTime =
        step.schedulerDisableTime := by
  unfold stampIfFailed stampFailure
  split
  · dsimp only
    split <;> exact ⟨rfl, rfl, rfl⟩
  · exact ⟨rfl, rfl, rfl⟩

private theorem stampIfFailed_retry (step : Step) (config : Config) (now : Time)
    (combined : Bool) :
    (step.stampIfFailed (some config) now combined .failed).retry =
      some (now + config.retryDelay) := by
  unfold stampIfFailed stampFailure
  dsimp only
  split <;> rfl

/-- The accounting of a counted failure. -/
theorem account_counted (step : Step) (now : Time)
    (hcounts : step.countsFailure .failed = true) :
    (step.account now .failed).1.marks = step.marks ++ [.failed now step.retryPolicy] ∧
      ((step.addFailure now).hasExcessiveFailures now = true →
        (step.account now .failed).2 = .disabled ∧
          (step.account now .failed).1.schedulerDisableTime = some now) ∧
      (¬(step.addFailure now).hasExcessiveFailures now = true →
        (step.account now .failed).2 = .failed) := by
  have hcounted : Status.failed = .failed ∧ step.status ≠ .disabled := by
    simpa [countsFailure] using hcounts
  unfold Step.account
  dsimp only
  rw [if_pos hcounted]
  by_cases hexcess : (step.addFailure now).hasExcessiveFailures now = true
  · rw [if_pos hexcess]
    refine ⟨?_, fun _ => ⟨rfl, rfl⟩, fun h => absurd hexcess h⟩
    split_ifs <;> rfl
  · rw [if_neg hexcess]
    refine ⟨?_, fun h => absurd h hexcess, fun _ => rfl⟩
    split_ifs <;> rfl

/-- The end of a `set_status` that counted a failure: the verdict is the right one. -/
theorem Tracked.markEnd {last : Step} (htracked : step.Tracked config now) (hnow : 0 < now)
    (hcounts : step.countsFailure .failed = true) (hlast : last.Tracked config now)
    (hmarks : last.marks = (step.account now .failed).1.marks)
    (hstatus : last.status = (step.account now .failed).2)
    (hdisabled : last.schedulerDisableTime = (step.account now .failed).1.schedulerDisableTime)
    (hretry : last.status = .failed → last.retry = some (now + config.retryDelay)) :
    (last.markEnd true).Tracked config now := by
  obtain ⟨hfailed, hdisables, hfails⟩ := account_counted step now hcounts
  have hjudges : UnderPolicy step.retryPolicy step.marks →
      step.retryPolicy.Judges config now (failureTimes step.marks ++ [now]) last.status
        last.schedulerDisableTime last.retry := by
    intro hpolicy
    rw [htracked.hasExcessiveFailures_iff hnow hpolicy, ← hstatus, ← hdisabled] at hdisables
    rw [htracked.hasExcessiveFailures_iff hnow hpolicy, ← hstatus] at hfails
    by_cases hexcess : step.retryPolicy.Excessive now (failureTimes step.marks ++ [now])
    · exact ⟨iff_of_true (hdisables hexcess) hexcess, fun h => absurd hexcess h⟩
    · have hverdict := hfails hexcess
      refine ⟨iff_of_false (fun h => ?_) hexcess, fun _ => ⟨hverdict, hretry hverdict⟩⟩
      rw [hverdict] at h
      cases h.1
  obtain ⟨hsorted, hbounded, hfirst, hkept, hcovers, hright⟩ := hlast
  have hended : (last.markEnd true).marks =
      last.marks ++ [.ended last.status last.schedulerDisableTime last.retry] := rfl
  have hpolicies : ∀ policy, UnderPolicy policy (last.markEnd true).marks →
      UnderPolicy policy last.marks := by
    intro policy hpolicy failure hmem
    refine hpolicy failure ?_
    rwa [hended, sinceClearing_ended]
  constructor <;> simp only [hended, failureTimes_ended]
  · exact hsorted
  · exact hbounded
  · exact hfirst
  · exact hkept
  · exact fun policy hpolicy => hcovers policy (hpolicies policy hpolicy)
  · rw [hmarks, hfailed] at hright ⊢
    exact hright.append_ended hjudges

end Step

/-! ## Programs -/

namespace Scheduler

variable {s t : Scheduler} {config : Config} {clock now : Time}

/-- Every step object is tracked. -/
def Tracks (config : Config) (clock : Time) (s : Scheduler) : Prop :=
  ∀ ref, (s.stepAt ref).Tracked config clock

/-- What the handlers promise about the failures, whether they raise or not. -/
def tracking (config : Config) (now : Time) : Contract Raised Scheduler where
  inv := Tracks config now
  rel s t := t.saved = s.saved
  allows _ := True
  refl _ := rfl
  trans hst htu := htu.trans hst

theorem tracking_careless (config : Config) (now : Time) : Careless (tracking config now) where
  allows := fun _ => trivial
  edits := fun htracks hedits => by
    refine ⟨fun ref => ?_, hedits.saved⟩
    rcases hedits.object ref with hledger | ⟨-, hblank⟩
    · exact (htracks ref).congr hledger
    · exact hblank.tracked

theorem Tracks.updateStep (htracks : s.Tracks config now) {ref : Ref} {change : Step → Step}
    (hchange : (change (s.stepAt ref)).Tracked config now) :
    (s.updateStep ref change).Tracks config now := by
  intro other
  rw [stepAt_updateStep]
  split
  · rename_i hother
    rwa [hother]
  · exact htracks other

/-- A write under which every tracked step stays so. -/
theorem tracking_updateStep {ref : Ref} {change : Step → Step}
    (hchange : ∀ step, step.Tracked config now → (change step).Tracked config now) :
    Honours (tracking config now) (modify fun s => s.updateStep ref change) :=
  fun _ htracks => .modify (htracks.updateStep (hchange _ (htracks ref))) rfl

theorem stepAt_of_moveStatus {ref : Ref} {newStatus : Status}
    (hrun : (moveStatus now ref newStatus).exec s = (.ok (), t)) :
    t.stepAt ref = (s.stepAt ref).withStatus now newStatus := by
  unfold moveStatus at hrun
  rw [exec_get_bind] at hrun
  unfold Step.withStatus
  by_cases hsame : newStatus = (s.stepAt ref).status
  · rw [if_pos hsame] at hrun ⊢
    cases hrun
    rfl
  · rw [if_neg hsame] at hrun ⊢
    by_cases hpresent : (s.bucket (s.stepAt ref).status).contains (s.stepAt ref).id = true
    · rw [if_pos hpresent] at hrun
      cases hrun
      rw [stepAt_refile, if_pos rfl]
    · rw [if_neg hpresent] at hrun
      cases hrun

theorem stepAt_of_stampFailure {ref : Ref} {newStatus : Status} {combined : Bool}
    {given : Option Config}
    (hrun : (stampFailure now ref newStatus combined given).exec s = (.ok (), t)) :
    t.stepAt ref = (s.stepAt ref).stampIfFailed given now combined newStatus ∧
      (newStatus = .failed → given ≠ none) := by
  cases newStatus with
  | failed =>
      cases given with
      | none => cases hrun
      | some config =>
          cases hrun
          refine ⟨?_, fun _ h => by cases h⟩
          rw [stepAt_updateStep, if_pos rfl]
          rfl
  | _ =>
      cases hrun
      exact ⟨rfl, fun h => by cases h⟩

/-- A change of a status keeps every step tracked, wherever it breaks off. -/
theorem applyStatus_tracks (hnow : 0 < now) {given : Option Config}
    (hgiven : given = none ∨ given = some config)
    {recur : Ref → Status → Option Config → SchedulerM Unit}
    (hrecur : ∀ ref newStatus, Honours (tracking config now) (recur ref newStatus given))
    (ref : Ref) (newStatus : Status) :
    Honours (tracking config now) (applyStatus recur now ref newStatus given) := by
  have hcareless := tracking_careless config now
  have hlenient := hcareless.lenient
  unfold applyStatus
  refine honours_get_bind fun s => ?_
  refine Honours.bind (tracking_updateStep fun step htracked => ?_) fun _ => ?_
  · unfold Step.revive
    split
    · exact htracked.reEnable
    · exact htracked
  refine (releaseBatch_honours hlenient hrecur ref newStatus).bind fun _ => ?_
  intro u htracks
  refine .get_bind (.get_bind ?_)
  set step := u.stepAt ref with hstep
  refine .bind (.modify (htracks.updateStep ((htracks ref).account hnow newStatus)) rfl)
    fun _ v hv hvtracks => .bind (moveStatus_honours hcareless ref _ v hvtracks)
      fun _ w hw hwtracks => .bind (stampFailure_honours hlenient ref _ _ w hwtracks)
        fun _ x hx hxtracks => .modify (hxtracks.updateStep ?_) rfl
  have hvstep : v.stepAt ref = (step.account now newStatus).1 := by
    cases hv
    rw [stepAt_updateStep, if_pos rfl]
  obtain ⟨hstamped, hasserted⟩ := stepAt_of_stampFailure hx
  have hxstep : x.stepAt ref =
      ((step.account now newStatus).1.withStatus now (step.account now newStatus).2).stampIfFailed
        given now (s.stepAt ref).removeOnFailure (step.account now newStatus).2 := by
    rw [hstamped, stepAt_of_moveStatus hw, hvstep]
  by_cases hcounts : step.countsFailure newStatus = true
  · have hfailed : newStatus = .failed := by
      simp only [Step.countsFailure, Bool.and_eq_true, beq_iff_eq] at hcounts
      exact hcounts.1
    subst hfailed
    rw [hcounts]
    refine (htracks ref).markEnd hnow hcounts (hxtracks ref) ?_ ?_ ?_ ?_ <;> rw [hxstep]
    · rw [(Step.stampIfFailed_keeps ..).1, (Step.withStatus_keeps _).1]
    · rw [(Step.stampIfFailed_keeps ..).2.1, Step.withStatus_status]
    · rw [(Step.stampIfFailed_keeps ..).2.2, (Step.withStatus_keeps _).2]
    · rw [(Step.stampIfFailed_keeps ..).2.1, Step.withStatus_status]
      intro hfinal
      rw [hgiven.resolve_left (hasserted hfinal), hfinal]
      exact Step.stampIfFailed_retry ..
  · rw [Bool.not_eq_true] at hcounts
    rw [hcounts]
    exact hxtracks ref

theorem tracking_admits (hnow : 0 < now) : Admits (tracking config now) config now where
  toLenient := (tracking_careless config now).lenient
  setStatus := fun hgiven => setStatus_honours (tracking_careless config now).lenient
    fun hrecur => applyStatus_tracks hnow hgiven hrecur
  forgives := fun _ => tracking_updateStep fun _ htracked => htracked.reEnable
  forgets := fun _ => tracking_updateStep fun _ htracked => htracked.clearFailures
  removes := inactivateSteps_honours (tracking_careless config now)

/-! ## Runs -/

theorem Tracks.mono (htracks : s.Tracks config clock) (hle : clock ≤ now) :
    s.Tracks config now := fun ref => (htracks ref).mono hle

theorem tracks_after {env : Env} {event : Event} (hnow : 0 < event.moment.now)
    (hclock : clock ≤ event.moment.now) (hlasting : Lasting (Tracks env.config clock) s) :
    Lasting (Tracks env.config event.moment.now) (env.after s event) := by
  refine lasting_after_others (fun {u v} htracks hheap _ _ ref => ?_) (fun hfile => ?_) hlasting
  · simp only [stepAt, hheap]
    exact (htracks ref).mono hclock
  · obtain ⟨htracks, hsaved, -⟩ :=
      serve_honours (tracking_admits hnow) hfile s (hlasting.1.mono hclock)
    exact ⟨htracks, hsaved⟩

theorem run_tracks (env : Env) {events : List Event} (htimely : Timely events)
    (hpositive : ∀ event ∈ events, 0 < event.moment.now)
    (hclock : ∀ event ∈ events, clock ≤ event.moment.now)
    (hlasting : Lasting (Tracks env.config clock) s) :
    ∃ last, (∀ now, clock ≤ now → (∀ event ∈ events, event.moment.now ≤ now) → last ≤ now) ∧
      Lasting (Tracks env.config last) (env.run s events) := by
  induction events generalizing s clock with
  | nil => exact ⟨clock, fun _ hnow _ => hnow, hlasting⟩
  | cons event rest ih =>
      obtain ⟨hfirst, hrest⟩ := List.pairwise_cons.mp htimely
      obtain ⟨hnow, hpositive⟩ := List.forall_mem_cons.mp hpositive
      have hafter := tracks_after hnow (hclock event (List.mem_cons_self ..)) hlasting
      obtain ⟨last, hlast, hrun⟩ := ih hrest hpositive hfirst hafter
      refine ⟨last, fun now _ hlater => ?_, hrun⟩
      obtain ⟨hevent, hothers⟩ := List.forall_mem_cons.mp hlater
      exact hlast now hevent hothers

end Scheduler

/-! ## Accepted failures -/

/-- `set_status` takes the step, which is not disabled when its failure is counted, to `FAILED`.
Before that, in the state between, the members of its batch have been told. -/
structure Fails (config : Config) (now : Time) (ref : Ref) (s between t : Scheduler) : Prop where
  accepted : (s.stepAt ref).ignores .failed = false
  told : (releaseBatch (setStatusUpTo 1 now) ref .failed (some config)).exec
    (s.updateStep ref fun step => step.revive .failed) = (.ok (), between)
  enabled : (between.stepAt ref).status ≠ .disabled
  returns : (setStatus now ref .failed (some config)).exec s = (.ok (), t)

namespace Scheduler

variable {s between t : Scheduler} {config : Config} {now : Time} {ref : Ref}

/-- A step that leads no batch fails as it is. -/
theorem told_self (hlone : (s.stepAt ref).releasesBatch .failed = false) :
    (releaseBatch (setStatusUpTo 1 now) ref .failed (some config)).exec s = (.ok (), s) := by
  unfold releaseBatch
  rw [exec_get_bind]
  dsimp only
  rw [hlone]
  rfl

/-- The step after the members of its batch have been told. -/
theorem stepAt_of_applyStatus {recur : Ref → Status → Option Config → SchedulerM Unit}
    (hrun : (applyStatus recur now ref .failed (some config)).exec s = (.ok (), t))
    (htold : (releaseBatch recur ref .failed (some config)).exec
      (s.updateStep ref fun step => step.revive .failed) = (.ok (), between)) :
    t.stepAt ref =
      ((((between.stepAt ref).account now .failed).1.withStatus now
        ((between.stepAt ref).account now .failed).2).stampIfFailed (some config) now
          (s.stepAt ref).removeOnFailure ((between.stepAt ref).account now .failed).2).markEnd
            ((between.stepAt ref).countsFailure .failed) := by
  unfold applyStatus at hrun
  rw [exec_get_bind, exec_modify_bind, exec_bind_ok htold, exec_get_bind, exec_get_bind,
    exec_modify_bind] at hrun
  obtain ⟨_, moved, hmove, hmoved⟩ := exec_bind_eq_ok hrun
  obtain ⟨_, stamped, hstamp, hstamped⟩ := exec_bind_eq_ok hmoved
  cases hstamped
  rw [stepAt_updateStep, if_pos rfl, (stepAt_of_stampFailure hstamp).1,
    stepAt_of_moveStatus hmove, stepAt_updateStep, if_pos rfl]

end Scheduler

namespace Fails

variable {s between t : Scheduler} {config : Config} {now : Time} {ref : Ref}

/-- An accepted failure enters the failure and the step as `set_status` leaves it. -/
theorem marks_eq (hfails : Fails config now ref s between t) :
    (t.stepAt ref).marks = (between.stepAt ref).marks ++
      .failed now (between.stepAt ref).retryPolicy ::
        [.ended (t.stepAt ref).status (t.stepAt ref).schedulerDisableTime
          (t.stepAt ref).retry] := by
  obtain ⟨haccepted, htold, henabled, hreturns⟩ := hfails
  have happly : (applyStatus (setStatusUpTo 1 now) now ref .failed (some config)).exec s =
      (.ok (), t) := by
    unfold setStatus setStatusUpTo setStatusBody at hreturns
    rw [exec_get_bind, if_neg (by simp), if_neg (by simp [haccepted])] at hreturns
    exact hreturns
  have hcounts : (between.stepAt ref).countsFailure .failed = true := by
    simp [Step.countsFailure, henabled]
  have hstep := Scheduler.stepAt_of_applyStatus happly htold
  rw [hcounts] at hstep
  have hfailed := (Step.account_counted (between.stepAt ref) now hcounts).1
  rw [hstep]
  simp only [Step.markEnd, if_true, (Step.stampIfFailed_keeps ..).1, (Step.withStatus_keeps _).1,
    hfailed, List.append_assoc, List.cons_append, List.nil_append]

/-- Where the failures are tracked the verdict is right. -/
theorem judges (hfails : Fails config now ref s between t) (hnow : 0 < now)
    (htracks : s.Tracks config now) {policy : RetryPolicy}
    (hpolicy : UnderPolicy policy (t.stepAt ref).marks) :
    policy.Judges config now (failureTimes (t.stepAt ref).marks) (t.stepAt ref).status
      (t.stepAt ref).schedulerDisableTime (t.stepAt ref).retry := by
  obtain ⟨hlast, -, -⟩ :=
    (Scheduler.tracking_admits hnow).setStatus (.inr rfl) ref .failed s htracks
  have hfinal : (setStatus now ref .failed (some config)).final s = t :=
    congrArg Prod.snd hfails.returns
  rw [hfinal] at hlast
  have hmarks := hfails.marks_eq
  have hsplit : (t.stepAt ref).marks = (between.stepAt ref).marks ++
      [.failed now (between.stepAt ref).retryPolicy] ++
        [.ended (t.stepAt ref).status (t.stepAt ref).schedulerDisableTime
          (t.stepAt ref).retry] := by
    rw [hmarks, List.append_assoc]
    rfl
  have hunder : UnderPolicy policy ((between.stepAt ref).marks ++
      [.failed now (between.stepAt ref).retryPolicy]) := by
    intro failure hmem
    refine hpolicy failure ?_
    rwa [hsplit, sinceClearing_ended]
  obtain ⟨hbefore, hsame⟩ := (underPolicy_failed ..).mp hunder
  have hjudges := (hlast ref).right _ _ _ _ _ _ _ hmarks (hsame.symm ▸ hbefore)
  rw [hsplit, failureTimes_ended, failureTimes_failed]
  exact hsame ▸ hjudges

end Fails

namespace Env

/-- Failures in a run at positive times are judged by the failures since the last clearing, this
one included.  The second part says it of an accepted failure of a step, in any state that is
reached.  Requests make several changes of a status in turn: the first part is about those that
the run has made, which are in the history by the third part, whatever the state. -/
theorem judges_failures (env : Env) (resources : Resources) {events : List Event}
    (htimely : Timely events) (hpositive : ∀ event ∈ events, 0 < event.moment.now) :
    (∀ (ref : Ref) (before after : List Mark) (now : Time) (policy : RetryPolicy)
        (status : Status) (disabled retry : Option Time),
      ((env.run (.initial resources) events).stepAt ref).marks =
        before ++ .failed now policy :: .ended status disabled retry :: after →
      UnderPolicy policy before →
      policy.Judges env.config now (failureTimes before ++ [now]) status disabled retry) ∧
    (∀ (ref : Ref) (now : Time) (policy : RetryPolicy) (between t : Scheduler),
      0 < now → (∀ event ∈ events, event.moment.now ≤ now) →
      Fails env.config now ref (env.run (.initial resources) events) between t →
      UnderPolicy policy (t.stepAt ref).marks →
      policy.Judges env.config now (failureTimes (t.stepAt ref).marks) (t.stepAt ref).status
        (t.stepAt ref).schedulerDisableTime (t.stepAt ref).retry) ∧
    ∀ (s between t : Scheduler) (ref : Ref) (now : Time), Fails env.config now ref s between t →
      (t.stepAt ref).marks = (between.stepAt ref).marks ++
        .failed now (between.stepAt ref).retryPolicy ::
          [.ended (t.stepAt ref).status (t.stepAt ref).schedulerDisableTime
            (t.stepAt ref).retry] := by
  have hinitial : Lasting (Scheduler.Tracks env.config 0) (.initial resources) := by
    refine ⟨fun ref => ?_, fun _ h => by cases h⟩
    have hblank : ((Scheduler.initial resources).stepAt ref).Blank := rfl
    exact hblank.tracked
  have hclock : ∀ event ∈ events, 0 ≤ event.moment.now :=
    fun event hmem => (hpositive event hmem).le
  refine ⟨fun ref => ?_, fun ref now policy between t hnow hlater hfails hpolicy => ?_,
    fun _ _ _ _ _ => Fails.marks_eq⟩
  · obtain ⟨last, -, htracks, -⟩ := Scheduler.run_tracks env htimely hpositive hclock hinitial
    exact (htracks ref).right
  · obtain ⟨last, hlast, htracks, -⟩ :=
      Scheduler.run_tracks env htimely hpositive hclock hinitial
    exact hfails.judges hnow (htracks.mono (hlast now hnow.le hlater)) hpolicy

end Env

/-- A report on a step that may fail twice within ten ticks. -/
def reportsStatus (status : Status) : Request :=
  .addStep
    { worker := firstWorker, stepId := "x", status := status
      retryPolicy := { retryCount := some 2, disableWindow := some 10 } }

/-- A failure that leaves its window, and two within one. -/
def repeatedFailures : List Event :=
  [ requestAt 1 (reportsStatus .pending),
    requestAt 5 (reportsStatus .failed),
    requestAt 20 (reportsStatus .failed),
    requestAt 25 (reportsStatus .failed) ]

/-- The run until then, and the third failure. -/
def beforeThirdFailure : Scheduler := defaultEnv.run (.initial ∅) (repeatedFailures.take 3)

def afterThirdFailure : Scheduler :=
  ((setStatus 25 0 .failed (some defaultEnv.config)).exec beforeThirdFailure).2

theorem third_failure_judged :
    (⟨2, 999999999, 10⟩ : RetryPolicy).Judges defaultEnv.config 25 [5, 20, 25]
      (afterThirdFailure.stepAt 0).status (afterThirdFailure.stepAt 0).schedulerDisableTime
      (afterThirdFailure.stepAt 0).retry := by
  have hfails : Fails defaultEnv.config 25 0 beforeThirdFailure
      (beforeThirdFailure.updateStep 0 fun step => step.revive .failed) afterThirdFailure :=
    ⟨by decide +kernel, Scheduler.told_self (by decide +kernel), by decide +kernel,
      Prod.ext (by decide +kernel) rfl⟩
  exact (defaultEnv.judges_failures ∅ (by decide +kernel) (by decide +kernel)).2.1 0 25 _ _ _
    (by decide) (by decide +kernel) hfails (by unfold UnderPolicy; decide +kernel)

end Trun
