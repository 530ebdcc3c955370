import Trun.Scheduler.StatusIndex

/-!
# Facts about `set_status` on one step

What a step is scheduled with, `set_status` leaves alone (`Step.plan`); what it
writes is the record of the run.
-/

namespace Trun

namespace Step

/-- A step without the record of its runs. -/
def plan (step : Step) : Step :=
  { step with
    status := .pending, updated := 0, retry := none, remove := none, workerRunning := none
    failures := [], firstFailureTime := none, schedulerDisableTime := none, batchId := none
    marks := [] }

variable (step : Step) (config : Option Config) (now : Time) (newStatus : Status)

private theorem revive_parts :
    (step.revive newStatus).plan = step.plan ∧
      (step.revive newStatus).workerRunning = step.workerRunning ∧
      (step.revive newStatus).retry = step.retry ∧
      (step.revive newStatus).remove = step.remove := by
  unfold revive; split <;> exact ⟨rfl, rfl, rfl, rfl⟩

private theorem leaveBatch_parts :
    (step.leaveBatch newStatus).plan = step.plan ∧
      (step.leaveBatch newStatus).workerRunning = step.workerRunning ∧
      (step.leaveBatch newStatus).retry = step.retry ∧
      (step.leaveBatch newStatus).remove = step.remove := by
  unfold leaveBatch; split <;> exact ⟨rfl, rfl, rfl, rfl⟩

private theorem account_parts :
    (step.account now newStatus).1.plan = step.plan ∧
      (step.account now newStatus).1.workerRunning = step.workerRunning ∧
      (step.account now newStatus).1.retry = step.retry ∧
      (step.account now newStatus).1.remove = step.remove ∧
      (step.account now newStatus).1.batchId = step.batchId := by
  unfold account
  dsimp only
  split_ifs <;> exact ⟨rfl, rfl, rfl, rfl, rfl⟩

private theorem withStatus_parts :
    (step.withStatus now newStatus).plan = step.plan ∧
      (step.withStatus now newStatus).workerRunning = step.workerRunning ∧
      (step.withStatus now newStatus).retry = step.retry ∧
      (step.withStatus now newStatus).remove = step.remove ∧
      (step.withStatus now newStatus).batchId = step.batchId := by
  unfold withStatus; split <;> exact ⟨rfl, rfl, rfl, rfl, rfl⟩

private theorem stampIfFailed_parts (combined : Bool) :
    (step.stampIfFailed config now combined newStatus).plan = step.plan ∧
      (step.stampIfFailed config now combined newStatus).workerRunning = step.workerRunning ∧
      (step.stampIfFailed config now combined newStatus).batchId = step.batchId ∧
      (step.stampIfFailed config now combined newStatus).status = step.status := by
  unfold stampIfFailed stampFailure
  split
  · dsimp only
    split <;> exact ⟨rfl, rfl, rfl, rfl⟩
  · exact ⟨rfl, rfl, rfl, rfl⟩

private theorem markEnd_parts (counted : Bool) :
    (step.markEnd counted).plan = step.plan ∧
      (step.markEnd counted).workerRunning = step.workerRunning ∧
      (step.markEnd counted).batchId = step.batchId ∧
      (step.markEnd counted).retry = step.retry ∧
      (step.markEnd counted).remove = step.remove := by
  unfold markEnd; split <;> exact ⟨rfl, rfl, rfl, rfl, rfl⟩

/-- The status that `account` arrives at. -/
theorem account_status_cases :
    (step.account now newStatus).2 = newStatus ∨
      (newStatus = .failed ∧ (step.account now newStatus).2 = .disabled) := by
  unfold account
  dsimp only
  by_cases hfailed : newStatus = .failed ∧ step.status ≠ .disabled
  · rw [if_pos hfailed]
    by_cases hexcess : (step.addFailure now).hasExcessiveFailures now = true
    · rw [if_pos hexcess]
      exact .inr ⟨hfailed.1, rfl⟩
    · rw [if_neg hexcess]
      exact .inl hfailed.1.symm
  · rw [if_neg hfailed]
    by_cases hdisabled : newStatus = .disabled
    · rw [if_pos hdisabled]
      exact .inl hdisabled.symm
    · rw [if_neg hdisabled]
      exact .inl rfl

theorem settle_of_ignores (hignores : step.ignores newStatus = true) :
    step.settle config now newStatus = step := if_pos hignores

theorem withStatus_plan : (step.withStatus now newStatus).plan = step.plan :=
  (withStatus_parts step now newStatus).1

theorem settle_plan : (step.settle config now newStatus).plan = step.plan := by
  unfold settle book
  split
  · rfl
  · rw [(markEnd_parts ..).1, (stampIfFailed_parts ..).1, (withStatus_parts ..).1,
      (account_parts ..).1, (leaveBatch_parts ..).1, (revive_parts ..).1]

@[simp] theorem settle_id : (step.settle config now newStatus).id = step.id :=
  (congrArg Step.id (settle_plan step config now newStatus) :)

@[simp] theorem settle_workerRunning :
    (step.settle config now newStatus).workerRunning = step.workerRunning := by
  unfold settle book
  split
  · rfl
  · rw [(markEnd_parts ..).2.1, (stampIfFailed_parts ..).2.1, (withStatus_parts ..).2.1,
      (account_parts ..).2.1, (leaveBatch_parts ..).2.1, (revive_parts ..).2.1]

/-- `set_status` forgets a batch only where it passes the status on. -/
theorem settle_batchId :
    (step.settle config now newStatus).batchId =
      if step.ignores newStatus = false ∧ step.releasesBatch newStatus = true then none
      else step.batchId := by
  unfold settle book
  by_cases hignores : step.ignores newStatus = true
  · simp [hignores]
  · rw [if_neg hignores, (markEnd_parts ..).2.2.1, (stampIfFailed_parts ..).2.2.1,
      (withStatus_parts ..).2.2.2.2, (account_parts ..).2.2.2.2]
    simp only [leaveBatch, releasesBatch_revive, hignores, true_and]
    split
    · rfl
    · exact revive_batchId ..

/-- The status that `set_status` leaves. -/
theorem settle_status_cases (hignores : step.ignores newStatus = false) :
    (step.settle config now newStatus).status = newStatus ∨
      (newStatus = .failed ∧ (step.settle config now newStatus).status = .disabled) := by
  unfold settle book
  rw [if_neg (by simp [hignores]), markEnd_status, (stampIfFailed_parts ..).2.2.2,
    withStatus_status]
  exact account_status_cases ..

/-- A status other than `FAILED` is taken over as it is. -/
theorem settle_status (hignores : step.ignores newStatus = false) (hstatus : newStatus ≠ .failed) :
    (step.settle config now newStatus).status = newStatus :=
  (settle_status_cases step config now newStatus hignores).resolve_right fun h => hstatus h.1

/-- A disabled step takes a failure without counting it. -/
theorem settle_status_of_disabled
    (hignores : step.ignores .failed = false) (hdisabled : step.status = .disabled) :
    (step.settle config now .failed).status = .failed := by
  have hkept : ((step.revive .failed).leaveBatch .failed).status = .disabled := by
    rw [leaveBatch_status, revive_status, hdisabled]
  have haccount : (((step.revive .failed).leaveBatch .failed).account now .failed).2 =
      .failed := by
    unfold account
    rw [if_neg fun h => h.2 hkept]
    rfl
  unfold settle book
  rw [if_neg (by simp [hignores]), markEnd_status, (stampIfFailed_parts ..).2.2.2,
    withStatus_status, haccount]

/-- A removal stamp is written only on the combined step of a batch that failed. -/
theorem settle_remove :
    (step.settle config now newStatus).remove = step.remove ∨
      (newStatus = .failed ∧ (step.settle config now newStatus).remove = some ⟨now, true⟩) := by
  unfold settle book
  split
  · exact .inl rfl
  · set booked :=
      ((((step.revive newStatus).leaveBatch newStatus).account now newStatus).1.withStatus
      now (((step.revive newStatus).leaveBatch newStatus).account now newStatus).2) with hbooked
    have hkeep : booked.remove = step.remove := by
      rw [hbooked, (withStatus_parts ..).2.2.2.1, (account_parts ..).2.2.2.1,
        (leaveBatch_parts ..).2.2.2, (revive_parts ..).2.2.2]
    have hfailed := account_failed ((step.revive newStatus).leaveBatch newStatus) now newStatus
    rw [(markEnd_parts ..).2.2.2.2]
    unfold stampIfFailed
    split
    · rename_i hstatus
      unfold stampFailure
      dsimp only
      split
      · exact .inr ⟨hfailed hstatus, rfl⟩
      · exact .inl hkeep
    · exact .inl hkeep

/-- Outside of a batch no removal stamp is written. -/
theorem settle_remove_of_single (hbatch : step.batchId = none) :
    (step.settle config now newStatus).remove = step.remove := by
  have hcombined : step.removeOnFailure = false := by
    simp only [removeOnFailure, hbatch, Option.isSome_none, Bool.false_and]
  have hstamp : ∀ (stamped : Step) (status : Status),
      (stamped.stampIfFailed config now false status).remove = stamped.remove := by
    intro stamped status
    unfold stampIfFailed
    split <;> rfl
  unfold settle book
  split
  · rfl
  · rw [hcombined, (markEnd_parts ..).2.2.2.2, hstamp, (withStatus_parts ..).2.2.2.1,
      (account_parts ..).2.2.2.1, (leaveBatch_parts ..).2.2.2, (revive_parts ..).2.2.2]

/-- A step that `set_status` leaves `FAILED` waits for the retry delay. -/
theorem settle_retry_eq {config : Config} (hignores : step.ignores newStatus = false)
    (hfailed : (step.settle (some config) now newStatus).status = .failed) :
    (step.settle (some config) now newStatus).retry = some (now + config.retryDelay) := by
  unfold settle book at hfailed ⊢
  rw [if_neg (by simp [hignores])] at hfailed ⊢
  rw [markEnd_status, (stampIfFailed_parts ..).2.2.2, withStatus_status] at hfailed
  rw [hfailed, (markEnd_parts ..).2.2.2.1]
  unfold stampIfFailed stampFailure
  dsimp only
  split <;> rfl

theorem settle_retry (hignores : step.ignores newStatus = false)
    (hconfig : newStatus = .failed → config ≠ none)
    (hfailed : (step.settle config now newStatus).status = .failed) :
    (step.settle config now newStatus).retry.isSome = true := by
  have hnew : newStatus = .failed := by
    by_contra hnot
    exact hnot ((settle_status step config now newStatus hignores hnot).symm.trans hfailed)
  obtain ⟨config, rfl⟩ := Option.ne_none_iff_exists'.mp (hconfig hnew)
  rw [settle_retry_eq step now newStatus hignores hfailed]
  rfl

/-- Where no failure, no disabling and no batch is involved, only the status changes. -/
theorem settle_plain (hold : step.status ≠ .disabled) (hfailed : newStatus ≠ .failed)
    (hdisabled : newStatus ≠ .disabled) (hkeeps : step.releasesBatch newStatus = false) :
    step.settle config now newStatus = step.withStatus now newStatus := by
  have hignores : step.ignores newStatus = false := by
    simp [ignores, hold, hdisabled]
  have hrevive : step.revive newStatus = step := by
    unfold revive
    rw [if_neg fun h => hold h.1]
  have hleave : step.leaveBatch newStatus = step := by
    unfold leaveBatch
    rw [hkeeps]
    rfl
  have haccount : step.account now newStatus = (step, newStatus) := by
    unfold account
    rw [if_neg fun h => hfailed h.1, if_neg hdisabled]
  unfold settle book
  rw [if_neg (by simp [hignores]), hrevive, hleave, haccount]
  cases newStatus with
  | failed => exact absurd rfl hfailed
  | _ => rfl

/-- Nothing but a report of a run makes a step run. -/
theorem settle_not_running (hstatus : newStatus.isRunning = false)
    (hdisabled : newStatus ≠ .disabled)  :
    (step.settle config now newStatus).status.isRunning = false := by
  by_cases hignores : step.ignores newStatus = true
  · rw [settle_of_ignores _ _ _ _ hignores]
    have hstate : step.status = .disabled := by
      have := hignores
      simp only [ignores, Bool.or_eq_true, Bool.and_eq_true, beq_iff_eq] at this
      rcases this with h | h
      · exact absurd h.1 hdisabled
      · exact h.1.1.1
    rw [hstate]
    rfl
  · rcases settle_status_cases step config now newStatus (by simpa using hignores) with h | h
    · rw [h]
      exact hstatus
    · rw [h.2]
      rfl

end Step

end Trun
