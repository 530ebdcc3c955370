import Mathlib.Data.Prod.Lex
import Trun.Worker.Children

/-!
# Which process a result belongs to

Results are matched to processes by step id only.  As long as no step is started again
while an entry for it is left in the queue, every entry for a registered step comes from
the registered process.
-/

namespace Trun

namespace Children

variable {c : Children} {pid : Pid} {process : StepProcess}

/-- Every result that was reported comes from the process that was registered, and the
processes that are not registered any more have one reported result each. -/
structure Exact (c : Children) : Prop where
  registered : ∀ {stepId pid}, c.running.get? stepId = some pid →
    ∃ process, c.processes[pid]? = some process ∧ process.stepId = stepId
  /-- A process that is not registered has put its result or is dead. -/
  unfinished : ∀ {pid process}, c.processes[pid]? = some process → process.isAlive = true →
    process.hasPut = false → c.running.get? process.stepId = some pid
  queued : ∀ entry ∈ c.queue, ∀ pid, c.running.get? entry.result.stepId = some pid →
    entry.origin = pid
  /-- An entry comes from a process that has put its result or is dead. -/
  spent : ∀ entry ∈ c.queue, ∃ process, c.processes[entry.origin]? = some process ∧
    (process.isAlive = true → process.hasPut = true)
  own : ∀ report ∈ c.reported, report.entry.origin = report.process
  started : ∀ report ∈ c.reported, report.process < c.processes.length
  once : ∀ pid < c.processes.length,
    c.reported.countP (fun report => report.entry.origin = pid) =
      if pid ∈ c.running.values then 0 else 1

theorem exact_initial : Exact {} where
  registered := by simp
  unfinished := by simp
  queued := by simp
  spent := by simp
  own := by simp
  started := by simp
  once := by simp

/-- No two steps have the same process. -/
theorem Exact.injective (hexact : c.Exact) {stepId other : StepId}
    (hget : c.running.get? stepId = some pid) (hother : c.running.get? other = some pid) :
    stepId = other := by
  obtain ⟨process, hprocess, hstep⟩ := hexact.registered hget
  obtain ⟨process', hprocess', hstep'⟩ := hexact.registered hother
  rw [hprocess] at hprocess'
  obtain rfl := Option.some.inj hprocess'
  exact hstep.symm.trans hstep'

/-! ## Parts of the events -/

theorem process_updateProcess (change : StepProcess → StepProcess) (other : Pid) :
    (c.updateProcess pid change).processes[other]? =
      if pid = other then (c.processes[other]?).map change else c.processes[other]? := by
  simp only [updateProcess, List.getElem?_modify]
  split <;> simp

theorem length_updateProcess (change : StepProcess → StepProcess) :
    (c.updateProcess pid change).processes.length = c.processes.length := by
  simp [updateProcess]

/-- A process may put its result and die. -/
theorem Exact.updateProcess (hexact : c.Exact) (change : StepProcess → StepProcess)
    (hstep : ∀ process, (change process).stepId = process.stepId)
    (halive : ∀ process, (change process).isAlive = true → process.isAlive = true)
    (hput : ∀ process, process.hasPut = true → (change process).hasPut = true) :
    (c.updateProcess pid change).Exact := by
  have hafter : ∀ {other : Pid} {process : StepProcess}, c.processes[other]? = some process →
      ∃ later, (c.updateProcess pid change).processes[other]? = some later ∧
        later.stepId = process.stepId ∧ (later.isAlive = true → process.isAlive = true) ∧
        (process.hasPut = true → later.hasPut = true) := by
    intro other process hprocess
    rw [process_updateProcess, hprocess]
    split
    · exact ⟨change process, rfl, hstep process, halive process, hput process⟩
    · exact ⟨process, rfl, rfl, fun h => h, fun h => h⟩
  have hlength : (c.updateProcess pid change).processes.length = c.processes.length :=
    length_updateProcess change
  constructor
  · intro stepId other hget
    obtain ⟨process, hprocess, hid⟩ := hexact.registered hget
    obtain ⟨later, hlater, hsame, -⟩ := hafter hprocess
    exact ⟨later, hlater, hsame.trans hid⟩
  · intro other later hlater hisAlive hhasPut
    have hbound := hlength ▸ (List.getElem?_eq_some_iff.mp hlater).1
    obtain ⟨later', hlater', hsame, halive', hput'⟩ := hafter (List.getElem?_eq_getElem hbound)
    obtain rfl := Option.some.inj (hlater.symm.trans hlater')
    rw [hsame]
    apply hexact.unfinished (List.getElem?_eq_getElem hbound) (halive' hisAlive)
    exact Bool.eq_false_iff.mpr fun h => Bool.eq_false_iff.mp hhasPut (hput' h)
  · exact hexact.queued
  · intro entry hentry
    obtain ⟨process, hprocess, hspent⟩ := hexact.spent entry hentry
    obtain ⟨later, hlater, -, halive', hput'⟩ := hafter hprocess
    exact ⟨later, hlater, fun h => hput' (hspent (halive' h))⟩
  · exact hexact.own
  · exact hlength ▸ hexact.started
  · exact hlength ▸ hexact.once

/-- An entry is put for a process whose step no other process is registered for. -/
theorem Exact.put (hexact : c.Exact) {result : StepResult}
    (hown : ∀ other, c.running.get? result.stepId = some other → pid = other)
    (hprocess : c.processes[pid]? = some process)
    (hspent : process.isAlive = true → process.hasPut = true) :
    (c.put result pid).Exact := by
  refine ⟨hexact.registered, hexact.unfinished, fun entry hentry => ?_, fun entry hentry => ?_,
    hexact.own, hexact.started, hexact.once⟩
  · rcases List.mem_append.mp hentry with hold | hnew
    · exact hexact.queued entry hold
    · obtain rfl := List.mem_singleton.mp hnew
      exact hown
  · rcases List.mem_append.mp hentry with hold | hnew
    · exact hexact.spent entry hold
    · obtain rfl := List.mem_singleton.mp hnew
      exact ⟨process, hprocess, hspent⟩

theorem Exact.phase (hexact : c.Exact) (phase : Phase) : ({ c with phase := phase }).Exact :=
  ⟨hexact.registered, hexact.unfinished, hexact.queued, hexact.spent, hexact.own,
    hexact.started, hexact.once⟩

/-! ## The events -/

/-- No entry for the step is left of an earlier process of it. -/
def StartsClean (c : Children) : ChildEvent → Prop
  | .runStep _ stepId _ => c.phase = .away → c.running.contains stepId = false →
      ∀ entry ∈ c.queue, entry.result.stepId ≠ stepId
  | _ => True

instance (c : Children) (event : ChildEvent) : Decidable (c.StartsClean event) := by
  cases event <;> unfold StartsClean <;> infer_instance

theorem Exact.runStep (hexact : c.Exact) {stepId : StepId} (now : Time) (workerTimeout : Int)
    (hclean : c.running.contains stepId = false →
      ∀ entry ∈ c.queue, entry.result.stepId ≠ stepId) :
    (c.runStep now stepId workerTimeout).Exact := by
  unfold Children.runStep
  split
  · exact hexact
  · rename_i hregistered
    have hnew : c.running.get? stepId = none := by
      simpa [Dict.contains] using hregistered
    replace hclean := hclean (by simpa using hregistered)
    have hfresh : ∀ {other pid}, c.running.get? other = some pid → pid < c.processes.length := by
      intro other pid hget
      obtain ⟨process, hprocess, -⟩ := hexact.registered hget
      exact (List.getElem?_eq_some_iff.mp hprocess).1
    have hvalues : ∀ pid, pid ∈ (c.running.set stepId c.processes.length).values ↔
        pid = c.processes.length ∨ pid ∈ c.running.values := by
      intro pid
      rw [Dict.values_set_new _ hnew, List.mem_append, List.mem_singleton, or_comm]
    constructor
    · intro other pid hget
      rw [Dict.get?_set] at hget
      split at hget
      · rename_i hself
        obtain rfl := Option.some.inj hget
        exact ⟨_, List.getElem?_concat_length, hself.symm⟩
      · obtain ⟨process, hprocess, hid⟩ := hexact.registered hget
        exact ⟨process, (List.getElem?_append_left (hfresh hget)).trans hprocess, hid⟩
    · intro pid process hprocess hisAlive hhasPut
      rw [Dict.get?_set]
      rcases Nat.lt_trichotomy pid c.processes.length with hold | hself | hlater
      · rw [List.getElem?_append_left hold] at hprocess
        have hget := hexact.unfinished hprocess hisAlive hhasPut
        rw [if_neg]
        · exact hget
        · rintro rfl
          rw [hnew] at hget
          cases hget
      · subst hself
        rw [List.getElem?_concat_length] at hprocess
        obtain rfl := Option.some.inj hprocess
        exact if_pos rfl
      · rw [List.getElem?_eq_none (by simpa using Nat.succ_le_of_lt hlater)] at hprocess
        cases hprocess
    · intro entry hentry pid hget
      rw [Dict.get?_set, if_neg (hclean entry hentry)] at hget
      exact hexact.queued entry hentry pid hget
    · intro entry hentry
      obtain ⟨process, hprocess, hspent⟩ := hexact.spent entry hentry
      have hbound := (List.getElem?_eq_some_iff.mp hprocess).1
      exact ⟨process, (List.getElem?_append_left hbound).trans hprocess, hspent⟩
    · exact hexact.own
    · intro report hreport
      have hstarted := hexact.started report hreport
      rw [List.length_append]
      exact Nat.lt_add_right 1 hstarted
    · intro pid hpid
      rw [List.length_append, List.length_singleton] at hpid
      simp only [hvalues]
      rcases Nat.lt_succ_iff_lt_or_eq.mp hpid with hold | rfl
      · rw [hexact.once pid hold]
        simp [Nat.ne_of_lt hold]
      · rw [if_pos (.inl rfl), List.countP_eq_zero]
        intro report hreport horigin
        have hstarted := hexact.started report hreport
        rw [← hexact.own report hreport, of_decide_eq_true horigin] at hstarted
        exact Nat.lt_irrefl _ hstarted

theorem Exact.putResult (hexact : c.Exact) (pid : Pid) (result : StepResult) :
    (c.putResult pid result).Exact := by
  unfold Children.putResult
  cases hprocess : c.processes[pid]? with
  | none => exact hexact
  | some process =>
      dsimp only
      split
      · rename_i hcan
        simp only [Bool.and_eq_true, Bool.not_eq_true'] at hcan
        have hget := hexact.unfinished hprocess hcan.1 hcan.2
        have hput : (c.updateProcess pid fun process => { process with hasPut := true }).Exact :=
          hexact.updateProcess _ (fun _ => rfl) (fun _ h => h) fun _ _ => rfl
        apply hput.put
        · exact fun other hother => Option.some.inj (hget.symm.trans hother)
        · rw [process_updateProcess, if_pos rfl, hprocess]
          rfl
        · exact fun _ => rfl
      · exact hexact

theorem Exact.exit (hexact : c.Exact) (pid : Pid) (code : Int) : (c.exit pid code).Exact := by
  unfold Children.exit
  cases hprocess : c.processes[pid]? with
  | none => exact hexact
  | some process =>
      dsimp only
      split
      · exact hexact.updateProcess _ (fun _ => rfl) nofun fun _ h => h
      · exact hexact

theorem Exact.purgeChild (hexact : c.Exact) (now : Time) (stepId : StepId) :
    (c.purgeChild now stepId).Exact := by
  unfold Children.purgeChild
  cases hget : c.running.get? stepId with
  | none => exact hexact
  | some pid =>
      dsimp only
      cases hprocess : c.processes[pid]? with
      | none => exact hexact
      | some process =>
          have hown : ∀ other, c.running.get? stepId = some other → pid = other :=
            fun other hother => Option.some.inj (hget.symm.trans hother)
          dsimp only
          split
          · rename_i hdied
            apply hexact.put hown hprocess
            intro halive
            rw [StepProcess.isAlive, Option.isNone_iff_eq_none] at halive
            rw [StepProcess.died, halive] at hdied
            cases hdied
          · split
            · have hkilled : (c.updateProcess pid fun process =>
                    { process with exitCode := some terminated }).Exact :=
                hexact.updateProcess _ (fun _ => rfl) nofun fun _ h => h
              apply hkilled.put
              · exact hown
              · rw [process_updateProcess, if_pos rfl, hprocess]
                rfl
              · exact nofun
            · exact hexact

theorem Exact.getResult (hexact : c.Exact) : c.getResult.Exact := by
  unfold Children.getResult
  split
  · exact hexact.phase .away
  · rename_i entry rest hqueue
    have hmem : entry ∈ c.queue := hqueue ▸ List.mem_cons_self ..
    have hrest : ∀ other ∈ rest, other ∈ c.queue := fun other hother =>
      hqueue ▸ List.mem_cons_of_mem entry hother
    split
    · exact ⟨hexact.registered, hexact.unfinished, fun other hother => hexact.queued other
        (hrest other hother), fun other hother => hexact.spent other (hrest other hother),
        hexact.own, hexact.started, hexact.once⟩
    · rename_i pid hregistered
      obtain rfl := hexact.queued entry hmem pid hregistered
      obtain ⟨process, hprocess, hid⟩ := hexact.registered hregistered
      have hlength := (List.getElem?_eq_some_iff.mp hprocess).1
      constructor
      · intro stepId other hget
        rw [Dict.get?_erase] at hget
        split at hget
        · cases hget
        · exact hexact.registered hget
      · intro other process' hprocess' hisAlive hhasPut
        have hget := hexact.unfinished hprocess' hisAlive hhasPut
        rw [Dict.get?_erase, if_neg]
        · exact hget
        · intro hself
          rw [hself] at hget
          obtain rfl := Option.some.inj (hget.symm.trans hregistered)
          obtain ⟨found, hfound, hspent⟩ := hexact.spent entry hmem
          obtain rfl := Option.some.inj (hfound.symm.trans hprocess')
          rw [hspent hisAlive] at hhasPut
          cases hhasPut
      · intro other hother pid hget
        rw [Dict.get?_erase] at hget
        split at hget
        · cases hget
        · exact hexact.queued other (hrest other hother) pid hget
      · exact fun other hother => hexact.spent other (hrest other hother)
      · intro report hreport
        rcases List.mem_append.mp hreport with hold | hnew
        · exact hexact.own report hold
        · obtain rfl := List.mem_singleton.mp hnew
          rfl
      · intro report hreport
        rcases List.mem_append.mp hreport with hold | hnew
        · exact hexact.started report hold
        · obtain rfl := List.mem_singleton.mp hnew
          exact hlength
      · intro pid hpid
        have hvalues : pid ∈ (c.running.erase entry.result.stepId).values ↔
            pid ∈ c.running.values ∧ entry.origin ≠ pid := by
          simp only [Dict.mem_values_iff, Dict.get?_erase]
          constructor
          · rintro ⟨stepId, hget⟩
            split at hget
            · cases hget
            · rename_i hother
              refine ⟨⟨stepId, hget⟩, ?_⟩
              rintro rfl
              exact hother (hexact.injective hget hregistered)
          · rintro ⟨⟨stepId, hget⟩, hother⟩
            refine ⟨stepId, ?_⟩
            rw [if_neg]
            · exact hget
            · rintro rfl
              exact hother (Option.some.inj (hregistered.symm.trans hget))
        rw [List.countP_append, hexact.once pid hpid]
        by_cases hself : entry.origin = pid
        · have hmember : pid ∈ c.running.values :=
            hself ▸ (Dict.mem_values_iff ..).mpr ⟨_, hregistered⟩
          simp [hvalues, hself, hmember]
        · simp [hvalues, hself]

theorem Exact.after (hexact : c.Exact) {event : ChildEvent} (hclean : c.StartsClean event) :
    (c.after event).Exact := by
  cases event with
  | runStep now stepId workerTimeout =>
      change (if c.phase = .away then _ else c).Exact
      split
      · rename_i haway
        exact hexact.runStep now workerTimeout (hclean haway)
      · exact hexact
  | putResult pid result => exact hexact.putResult pid result
  | exit pid code => exact hexact.exit pid code
  | handleNextStep now =>
      change (c.handle now).Exact
      unfold Children.handle
      split
      · exact hexact.phase _
      · exact hexact.phase _
      · exact (hexact.purgeChild now _).phase _
      · exact hexact.getResult

/-! ## No result of a registered process is lost -/

/-- An entry for the step is in the queue. -/
def Answered (c : Children) (stepId : StepId) : Prop :=
  ∃ entry ∈ c.queue, entry.result.stepId = stepId

/-- The result of a registered process has not been read. -/
def Awaited (c : Children) : Prop :=
  ∀ stepId pid process, c.running.get? stepId = some pid →
    c.processes[pid]? = some process → process.hasPut = true → c.Answered stepId

theorem awaited_initial : Awaited {} := by
  intro stepId pid process hget
  cases hget

theorem Answered.put {stepId : StepId} (hanswered : c.Answered stepId) (result : StepResult) :
    (c.put result pid).Answered stepId := by
  obtain ⟨entry, hentry, hid⟩ := hanswered
  exact ⟨entry, List.mem_append_left _ hentry, hid⟩

theorem answered_put (c : Children) (result : StepResult) (pid : Pid) :
    (c.put result pid).Answered result.stepId :=
  ⟨⟨result, pid⟩, List.mem_append_right _ (List.mem_singleton.mpr rfl), rfl⟩

theorem Awaited.put (hawaited : c.Awaited) (result : StepResult) : (c.put result pid).Awaited :=
  fun _ _ _ hget hprocess hput => (hawaited _ _ _ hget hprocess hput).put result

/-- Only a process that puts its result has to be in the queue. -/
theorem Awaited.updateProcess (hawaited : c.Awaited) (change : StepProcess → StepProcess)
    (hput : ∀ stepId process, c.running.get? stepId = some pid →
      c.processes[pid]? = some process → (change process).hasPut = true →
      process.hasPut = true ∨ c.Answered stepId) :
    (c.updateProcess pid change).Awaited := by
  intro stepId other process hget hprocess hhasPut
  rw [process_updateProcess] at hprocess
  split at hprocess
  · rename_i hself
    subst hself
    obtain ⟨before, hbefore, rfl⟩ := Option.map_eq_some_iff.mp hprocess
    rcases hput stepId before hget hbefore hhasPut with hearlier | hanswered
    · exact hawaited _ _ _ hget hbefore hearlier
    · exact hanswered
  · exact hawaited _ _ _ hget hprocess hhasPut

theorem Awaited.runStep (hawaited : c.Awaited) (hexact : c.Exact) (now : Time)
    (stepId : StepId) (workerTimeout : Int) : (c.runStep now stepId workerTimeout).Awaited := by
  unfold Children.runStep
  split
  · exact hawaited
  · intro other pid process hget hprocess hhasPut
    dsimp only at hget hprocess
    rw [Dict.get?_set] at hget
    split at hget
    · obtain rfl := Option.some.inj hget
      rw [List.getElem?_concat_length] at hprocess
      obtain rfl := Option.some.inj hprocess
      cases hhasPut
    · obtain ⟨before, hbefore, -⟩ := hexact.registered hget
      rw [List.getElem?_append_left (List.getElem?_eq_some_iff.mp hbefore).1] at hprocess
      exact hawaited _ _ _ hget hprocess hhasPut

theorem Awaited.putResult (hawaited : c.Awaited) (hexact : c.Exact) (pid : Pid)
    (result : StepResult) : (c.putResult pid result).Awaited := by
  unfold Children.putResult
  cases hprocess : c.processes[pid]? with
  | none => exact hawaited
  | some process =>
      dsimp only
      split
      · have hput : (c.put { result with stepId := process.stepId } pid).Awaited :=
          hawaited.put _
        refine hput.updateProcess _ fun stepId before hget hbefore _ => .inr ?_
        obtain ⟨found, hfound, rfl⟩ := hexact.registered hget
        obtain rfl := Option.some.inj (hprocess.symm.trans hfound)
        exact answered_put c { result with stepId := process.stepId } pid
      · exact hawaited

theorem Awaited.exit (hawaited : c.Awaited) (pid : Pid) (code : Int) :
    (c.exit pid code).Awaited := by
  unfold Children.exit
  cases hprocess : c.processes[pid]? with
  | none => exact hawaited
  | some process =>
      dsimp only
      split
      · exact hawaited.updateProcess _ fun _ _ _ _ h => .inl h
      · exact hawaited

theorem Awaited.purgeChild (hawaited : c.Awaited) (now : Time) (stepId : StepId) :
    (c.purgeChild now stepId).Awaited := by
  unfold Children.purgeChild
  cases hget : c.running.get? stepId with
  | none => exact hawaited
  | some pid =>
      dsimp only
      cases hprocess : c.processes[pid]? with
      | none => exact hawaited
      | some process =>
          dsimp only
          split
          · exact hawaited.put _
          · split
            · apply Awaited.put
              exact hawaited.updateProcess _ fun _ _ _ _ h => .inl h
            · exact hawaited

theorem Awaited.getResult (hawaited : c.Awaited) : c.getResult.Awaited := by
  unfold Children.getResult
  split
  · exact hawaited
  · rename_i entry rest hqueue
    have hrest : ∀ {stepId pid process}, c.running.get? stepId = some pid →
        c.processes[pid]? = some process → process.hasPut = true →
        entry.result.stepId ≠ stepId → ∃ entry ∈ rest, entry.result.stepId = stepId := by
      intro stepId pid process hget hprocess hput hother
      obtain ⟨found, hfound, hid⟩ := hawaited _ _ _ hget hprocess hput
      rw [hqueue] at hfound
      rcases List.mem_cons.mp hfound with rfl | hlater
      · exact absurd hid hother
      · exact ⟨found, hlater, hid⟩
    split
    · rename_i hunregistered
      intro stepId pid process hget hprocess hput
      apply hrest hget hprocess hput
      rintro rfl
      exact absurd (hunregistered.symm.trans hget) nofun
    · intro stepId pid process hget hprocess hput
      dsimp only at hget
      rw [Dict.get?_erase] at hget
      split at hget
      · cases hget
      · rename_i hother
        exact hrest hget hprocess hput (Ne.symm hother)

theorem Awaited.after (hawaited : c.Awaited) (hexact : c.Exact) (event : ChildEvent) :
    (c.after event).Awaited := by
  cases event with
  | runStep now stepId workerTimeout =>
      change (if c.phase = .away then _ else c).Awaited
      split
      · exact hawaited.runStep hexact now stepId workerTimeout
      · exact hawaited
  | putResult pid result => exact hawaited.putResult hexact pid result
  | exit pid code => exact hawaited.exit pid code
  | handleNextStep now =>
      change (c.handle now).Awaited
      unfold Children.handle
      split
      · exact hawaited
      · exact hawaited
      · exact hawaited.purgeChild now _
      · exact hawaited.getResult

/-! ## The calls of `_handle_next_step` at the end -/

/-- What looking at one process comes to. -/
structure Purges (stepId : StepId) (c c' : Children) : Prop where
  running : c'.running = c.running
  queue : c'.queue = c.queue ∨
    c.running.contains stepId = true ∧
      ∃ entry, entry.result.stepId = stepId ∧ c'.queue = c.queue ++ [entry]
  ended : ∀ (pid : Pid) (process' : StepProcess), c'.processes[pid]? = some process' →
    ∃ process, c.processes[pid]? = some process ∧ (process.ended = true → process'.ended = true)
  answers : c.Awaited → (∀ (pid : Pid) (process : StepProcess), c.running.get? stepId = some pid →
    c.processes[pid]? = some process → process.ended = true) →
    c.running.contains stepId = true → c.Exact → c'.Answered stepId

theorem purgeChild_purges (c : Children) (now : Time) (stepId : StepId) :
    Purges stepId c (c.purgeChild now stepId) := by
  unfold purgeChild
  cases hget : c.running.get? stepId with
  | none =>
      refine ⟨rfl, .inl rfl, fun _ process h => ⟨process, h, id⟩, fun _ _ hcontains => ?_⟩
      simp [Dict.contains, hget] at hcontains
  | some pid =>
      have hcontains : c.running.contains stepId = true :=
        (Dict.contains_iff ..).mpr ⟨pid, hget⟩
      dsimp only
      cases hprocess : c.processes[pid]? with
      | none =>
          refine ⟨rfl, .inl rfl, fun _ process h => ⟨process, h, id⟩, fun _ _ _ hexact => ?_⟩
          obtain ⟨process, hfound, -⟩ := hexact.registered hget
          rw [hprocess] at hfound
          cases hfound
      | some process =>
          dsimp only
          split
          · exact ⟨rfl, .inr ⟨hcontains, _, rfl, rfl⟩, fun _ process h => ⟨process, h, id⟩,
              fun _ _ _ _ => answered_put ..⟩
          · rename_i hdied
            split
            · refine ⟨rfl, .inr ⟨hcontains, _, rfl, rfl⟩, fun other process' h => ?_,
                fun _ _ _ _ => answered_put ..⟩
              change (c.updateProcess pid _).processes[other]? = some process' at h
              rw [process_updateProcess] at h
              split at h
              · obtain ⟨before, hbefore, rfl⟩ := Option.map_eq_some_iff.mp h
                exact ⟨before, hbefore, fun _ => Bool.or_true _⟩
              · exact ⟨process', h, id⟩
            · refine ⟨rfl, .inl rfl, fun _ process h => ⟨process, h, id⟩,
                fun hawaited hended _ _ => ?_⟩
              apply hawaited stepId pid process hget hprocess
              have hprocessEnded := hended pid process hget hprocess
              simpa [StepProcess.ended, hdied] using hprocessEnded

/-- `_purge_children` has looked at the process of the step. -/
def LookedAt (stepId : StepId) : Phase → Prop
  | .away => False
  | .purging left => stepId ∉ left
  | .getting => True

/-- All processes that are registered have ended. -/
structure Draining (c : Children) : Prop where
  exact : c.Exact
  awaited : c.Awaited
  ended : ∀ stepId pid process, c.running.get? stepId = some pid →
    c.processes[pid]? = some process → process.ended = true
  swept : ∀ stepId, c.running.contains stepId = true → LookedAt stepId c.phase →
    c.Answered stepId

/-- The entries that are read before one for a registered step. -/
def ahead (c : Children) : ℕ :=
  (c.queue.takeWhile fun entry => !c.running.contains entry.result.stepId).length

/-- The moves up to the next reading of the queue. -/
def movesLeft (c : Children) : ℕ :=
  match c.phase with
  | .away => c.running.size + 2
  | .purging left => left.length + 1
  | .getting => 0

/-- The work that is left, the most important part first. -/
def remaining (c : Children) : ℕ ×ₗ ℕ ×ₗ ℕ := toLex (c.running.size, toLex (c.ahead, c.movesLeft))

theorem ahead_append {c' : Children} {entry : QueueEntry} (hrunning : c'.running = c.running)
    (hcontains : c.running.contains entry.result.stepId = true)
    (hqueue : c'.queue = c.queue ++ [entry]) : c'.ahead = c.ahead := by
  unfold ahead
  rw [hqueue, hrunning, List.takeWhile_append]
  split
  · rename_i hall
    simp [hcontains, hall]
  · rfl

theorem size_erase_lt {stepId : StepId} (hget : c.running.get? stepId = some pid) :
    (c.running.erase stepId).size < c.running.size := by
  unfold Dict.size Dict.erase
  apply List.length_filter_lt_length_iff_exists.mpr
  exact ⟨(stepId, pid), (Dict.mem_entries_iff ..).mpr hget, by simp⟩

/-- A move that reads nothing. -/
theorem remaining_lt_of_moves {c' : Children} (hrunning : c'.running = c.running)
    (hahead : c'.ahead = c.ahead) (hmoves : c'.movesLeft < c.movesLeft) :
    c'.remaining < c.remaining := by
  unfold remaining
  rw [hrunning, hahead, Prod.Lex.toLex_lt_toLex]
  refine .inr ⟨rfl, ?_⟩
  rw [Prod.Lex.toLex_lt_toLex]
  exact .inr ⟨rfl, hmoves⟩

/-- The phase starts over with all registered processes. -/
theorem not_lookedAt_keys {stepId : StepId} (hcontains : c.running.contains stepId = true) :
    ¬LookedAt stepId (.purging c.running.keys) := fun hlooked =>
  hlooked ((Dict.mem_keys_iff ..).mpr ((Dict.contains_iff ..).mp hcontains))

/-- `_purge_children` looks at a process. -/
theorem Draining.purge (hdraining : c.Draining) {stepId : StepId} {left : List StepId}
    (hphase : c.phase = .purging (stepId :: left)) (now : Time) :
    ({ c.purgeChild now stepId with phase := .purging left } : Children).Draining ∧
      ({ c.purgeChild now stepId with phase := .purging left } : Children).remaining <
        c.remaining := by
  obtain ⟨hexact, hawaited, hended, hswept⟩ := hdraining
  have hpurges := purgeChild_purges c now stepId
  refine ⟨⟨(hexact.purgeChild now stepId).phase _, hawaited.purgeChild now stepId,
    fun other pid process' hget hprocess => ?_, fun other hcontains hlooked => ?_⟩, ?_⟩
  · obtain ⟨process, hbefore, hends⟩ := hpurges.ended pid process' hprocess
    dsimp only at hget
    rw [hpurges.running] at hget
    exact hends (hended other pid process hget hbefore)
  · dsimp only at hcontains
    rw [hpurges.running] at hcontains
    by_cases hself : other = stepId
    · subst hself
      exact hpurges.answers hawaited (hended other) hcontains hexact
    · rw [hphase] at hswept
      obtain ⟨entry, hentry, hid⟩ :=
        hswept other hcontains (by simpa [LookedAt, hself] using hlooked)
      refine ⟨entry, ?_, hid⟩
      rcases hpurges.queue with hsame | ⟨-, added, -, hadded⟩
      · exact hsame ▸ hentry
      · exact hadded ▸ List.mem_append_left _ hentry
  · apply remaining_lt_of_moves
    · exact hpurges.running
    · rcases hpurges.queue with hsame | ⟨hcontains, added, rfl, hadded⟩
      · unfold ahead
        dsimp only
        rw [hpurges.running, hsame]
      · exact ahead_append hpurges.running hcontains hadded
    · simp [movesLeft, hphase]

/-- The queue is not empty, and its first entry is passed over or reported. -/
theorem Draining.read (hdraining : c.Draining) (hphase : c.phase = .getting)
    (hrunning : c.running.isEmpty = false) :
    c.getResult.Draining ∧ c.getResult.remaining < c.remaining := by
  obtain ⟨hexact, hawaited, hended, hswept⟩ := hdraining
  obtain ⟨stepId, pid, hget⟩ : ∃ stepId pid, c.running.get? stepId = some pid := by
    obtain ⟨⟨stepId, pid⟩, hentry⟩ := List.exists_mem_of_ne_nil c.running.entries
      (by simpa [Dict.isEmpty] using hrunning)
    exact ⟨stepId, pid, (Dict.mem_entries_iff ..).mp hentry⟩
  rw [hphase] at hswept
  obtain ⟨found, hfound, -⟩ := hswept stepId ((Dict.contains_iff ..).mpr ⟨pid, hget⟩) trivial
  have hexact' := hexact.getResult
  have hawaited' := hawaited.getResult
  unfold Children.getResult at hexact' hawaited' ⊢
  split at hexact'
  · rename_i hempty
    simp [hempty] at hfound
  · rename_i entry rest hqueue
    simp only [hqueue] at hawaited' ⊢
    cases hregistered : c.running.get? entry.result.stepId with
    | none =>
        simp only [hregistered] at hexact' hawaited' ⊢
        refine ⟨⟨hexact', hawaited', hended, fun other hcontains hlooked => ?_⟩, ?_⟩
        · exact absurd hlooked (not_lookedAt_keys hcontains)
        · unfold remaining
          rw [Prod.Lex.toLex_lt_toLex]
          refine .inr ⟨rfl, ?_⟩
          rw [Prod.Lex.toLex_lt_toLex]
          refine .inl ?_
          simp [ahead, hqueue, Dict.contains, hregistered]
    | some owner =>
        simp only [hregistered] at hexact' hawaited' ⊢
        refine ⟨⟨hexact', hawaited', fun other pid process hother => ?_, fun _ _ h => h.elim⟩, ?_⟩
        · dsimp only at hother
          rw [Dict.get?_erase] at hother
          split at hother
          · cases hother
          · exact hended other pid process hother
        · unfold remaining
          rw [Prod.Lex.toLex_lt_toLex]
          exact .inl (size_erase_lt hregistered)

/-- Each move brings the end of the calls nearer. -/
theorem Draining.handle (hdraining : c.Draining) (hrunning : c.running.isEmpty = false)
    (now : Time) : (c.handle now).Draining ∧ (c.handle now).remaining < c.remaining := by
  unfold Children.handle
  split
  · rename_i hphase
    obtain ⟨hexact, hawaited, hended, -⟩ := hdraining
    refine ⟨⟨hexact.phase _, hawaited, hended, fun stepId hcontains hlooked => ?_⟩, ?_⟩
    · exact absurd hlooked (not_lookedAt_keys hcontains)
    · apply remaining_lt_of_moves
      · rfl
      · rfl
      · simp [movesLeft, hphase, Dict.keys, Dict.size]
  · rename_i hphase
    obtain ⟨hexact, hawaited, hended, hswept⟩ := hdraining
    rw [hphase] at hswept
    refine ⟨⟨hexact.phase _, hawaited, hended, fun stepId hcontains _ => ?_⟩, ?_⟩
    · exact hswept stepId hcontains List.not_mem_nil
    · apply remaining_lt_of_moves
      · rfl
      · rfl
      · simp [movesLeft, hphase]
  · rename_i stepId left hphase
    exact hdraining.purge hphase now
  · rename_i hphase
    exact hdraining.read hphase hrunning

/-- Some moves of `_handle_next_step`, one after the other, at the times of a clock. -/
def handles (c : Children) (clock : ℕ → Time) : ℕ → Children
  | 0 => c
  | count + 1 => (c.handle (clock 0)).handles (fun tick => clock (tick + 1)) count

/-- The worker gets to the end of its running steps. -/
theorem Draining.handles (hdraining : c.Draining) (clock : ℕ → Time) :
    ∃ count, (c.handles clock count).Exact ∧ (c.handles clock count).running = ∅ := by
  induction hremaining : c.remaining using WellFoundedLT.induction generalizing c clock with
  | ind remaining ih =>
      subst hremaining
      cases hrunning : c.running.isEmpty with
      | true => exact ⟨0, hdraining.exact, Dict.eq_empty_of_isEmpty hrunning⟩
      | false =>
          obtain ⟨hnext, hless⟩ := hdraining.handle hrunning (clock 0)
          obtain ⟨count, hcount⟩ := ih _ hless hnext (fun tick => clock (tick + 1)) rfl
          exact ⟨count + 1, hcount⟩

/-! ## Reports and their processes -/

/-- Every result that the worker reports comes from the process that is registered for the
step, and every process has one reported result once it is not registered any more, which
the worker gets to when all processes have ended. -/
structure ReportsOwn (c : Children) : Prop where
  own : ∀ report ∈ c.reported, report.entry.origin = report.process
  once : ∀ pid < c.processes.length,
    c.reported.countP (fun report => report.entry.origin = pid) =
      if pid ∈ c.running.values then 0 else 1
  ends : c.phase = .away → (∀ process ∈ c.processes, process.ended = true) →
    ∀ clock : ℕ → Time, ∃ count, (c.handles clock count).running = ∅ ∧
      ∀ pid < c.processes.length, (c.handles clock count).reported.countP
        (fun report => report.entry.origin = pid) = 1

theorem length_handle (c : Children) (now : Time) :
    (c.handle now).processes.length = c.processes.length := by
  have hpurge : ∀ stepId, (c.purgeChild now stepId).processes.length = c.processes.length := by
    intro stepId
    unfold purgeChild
    split
    · rfl
    · split
      · rfl
      · dsimp only
        split
        · rfl
        · split
          · exact length_updateProcess _
          · rfl
  unfold handle
  split
  · rfl
  · rfl
  · exact hpurge _
  · unfold getResult
    split
    · rfl
    · split <;> rfl

theorem length_handles (c : Children) (clock : ℕ → Time) (count : ℕ) :
    (c.handles clock count).processes.length = c.processes.length := by
  induction count generalizing c clock with
  | zero => rfl
  | succ count ih => exact (ih _ _).trans (c.length_handle (clock 0))

theorem Exact.reportsOwn (hexact : c.Exact) (hawaited : c.Awaited) : c.ReportsOwn := by
  refine ⟨hexact.own, hexact.once, fun haway hended clock => ?_⟩
  have hdraining : c.Draining := by
    refine ⟨hexact, hawaited, fun stepId pid process _ hprocess => ?_, fun _ _ hlooked => ?_⟩
    · exact hended process (List.mem_of_getElem? hprocess)
    · rw [haway] at hlooked
      exact hlooked.elim
  obtain ⟨count, hfinal, hrunning⟩ := hdraining.handles clock
  refine ⟨count, hrunning, fun pid hpid => ?_⟩
  rw [hfinal.once pid (c.length_handles clock count ▸ hpid), hrunning, if_neg]
  exact List.not_mem_nil

/-- In every run in which no step is started again before all entries for it have been read,
results are reported for the processes that they come from, one for each. -/
theorem reportsOwn_along {events : List ChildEvent} (hclean : Along after StartsClean {} events) :
    (runAll after {} events).ReportsOwn := by
  obtain ⟨hexact, hawaited⟩ := runAll_invariant after StartsClean
    (fun c => c.Exact ∧ c.Awaited) (fun c event hinv hevent =>
      ⟨hinv.1.after hevent, hinv.2.after hinv.1 event⟩)
    ⟨exact_initial, awaited_initial⟩ hclean
  exact hexact.reportsOwn hawaited

/-- The moves of a call that looks at some processes and reports a result. -/
def reportsNext (processes : ℕ) : List ChildEvent :=
  List.replicate (processes + 3) (.handleNextStep 1)

/-- A process dies while the result of another one is at the head of the queue; then its
step is run again. -/
def retriedRun : List ChildEvent :=
  [ .runStep 0 "a" 0, .runStep 0 "b" 0,
    .putResult 1 { stepId := "b", status := .done, expl := "" }, .exit 0 1 ] ++
  reportsNext 2 ++ reportsNext 1 ++ [.runStep 1 "a" 0] ++ reportsNext 1

/-- Both calls put a failure, and the second one is reported for the second process. -/
theorem left_over_failure : ¬(runAll after {} retriedRun).ReportsOwn := by
  intro hreports
  have hown := hreports.own
  revert hown
  decide +kernel

/-- The step is run again after its only failure has been read. -/
theorem clean_retry_is_reported :
    (runAll after {} ([.runStep 0 "a" 0, .exit 0 1] ++ reportsNext 1 ++
      [.runStep 1 "a" 0,
        .putResult 1 { stepId := "a", status := .done, expl := "" }])).ReportsOwn :=
  reportsOwn_along (by decide +kernel)

end Children

end Trun
