import Mathlib.Algebra.Order.BigOperators.Group.List
import Mathlib.Algebra.Order.Ring.Nat
import Trun.Scheduler.IndexRuns

/-!
# Answering a worker

`count_pending` looks up the ids of a worker's steps in a table that
`_upstream_status` fills from the steps of the state.  The lookup succeeds unless
the id belongs to a `DONE` step, which cannot be unless the worker still keeps an
object that was removed and whose id was taken again.
-/

namespace Trun

open Program

/-- A sum in which one term is replaced and the others do not grow. -/
theorem sum_map_add_le {α : Type} {items : List α} (before : α → ℕ) (after : α → ℕ)
    (hle : ∀ item, after item ≤ before item) {item : α} (hitem : item ∈ items) :
    (items.map after).sum + before item ≤ (items.map before).sum + after item := by
  induction items with
  | nil => cases hitem
  | cons first rest ih =>
      simp only [List.map_cons, List.sum_cons]
      rcases List.mem_cons.mp hitem with rfl | hrest
      · have hsum : (rest.map after).sum ≤ (rest.map before).sum :=
          List.sum_le_sum fun other _ => hle other
        omega
      · have hfirst := hle first
        have hsum := ih hrest
        omega

namespace Scheduler

variable {s t : Scheduler}

/-! ## The upstream table -/

/-- `_upstream_status` passes over the id: its step is `DONE`. -/
def isDone (s : Scheduler) (id : StepId) : Bool :=
  match s.getStep id with
  | none => false
  | some ref => (s.stepAt ref).status == .done

/-- The rounds that ids without an entry may still cause. -/
def untabulated (s : Scheduler) (table : UpstreamTable) : ℕ :=
  (s.steps.entries.map fun entry =>
    if table.contains entry.1 then 0 else (s.stepAt entry.2).deps.size + 1).sum

/-- The second table has the entries of the first one and maybe more. -/
def Tabulates (table table' : UpstreamTable) : Prop :=
  ∀ id, table.contains id = true → table'.contains id = true

theorem tabulates_set (table : UpstreamTable) (id : StepId) (status : UpstreamStatus) :
    Tabulates table (table.set id status) := by
  intro other hother
  simp only [Dict.contains, Dict.get?_set] at hother ⊢
  split
  · rfl
  · exact hother

theorem contains_set (table : UpstreamTable) (id : StepId) (status : UpstreamStatus) :
    (table.set id status).contains id = true := by
  simp only [Dict.contains, Dict.get?_set, if_true, Option.isSome_some]

theorem Tabulates.untabulated_le {table table' : UpstreamTable}
    (htabulates : Tabulates table table') : s.untabulated table' ≤ s.untabulated table := by
  refine List.sum_le_sum fun entry _ => ?_
  by_cases hold : table.contains entry.1 = true
  · simp only [htabulates _ hold, if_true, Nat.zero_le]
  · simp only [hold, Bool.false_eq_true, if_false]
    split <;> omega

/-- A first visit uses up the rounds of its id. -/
theorem untabulated_set {table : UpstreamTable} {id : StepId} {ref : Ref}
    (hget : s.getStep id = some ref) (hnew : table.contains id = false)
    (status : UpstreamStatus) :
    s.untabulated (table.set id status) + ((s.stepAt ref).deps.size + 1) ≤
      s.untabulated table := by
  have hmem : (id, ref) ∈ s.steps.entries := (s.steps.mem_entries_iff id ref).mpr hget
  have hsum := sum_map_add_le (fun entry : StepId × Ref =>
      if table.contains entry.1 then 0 else (s.stepAt entry.2).deps.size + 1)
      (fun entry : StepId × Ref =>
      if (table.set id status).contains entry.1 then 0
      else (s.stepAt entry.2).deps.size + 1) (fun entry => by
      by_cases hold : table.contains entry.1 = true
      · simp only [hold, tabulates_set table id status _ hold, if_true, le_refl]
      · simp only [hold, Bool.false_eq_true, if_false]
        split <;> omega) hmem
  simp only [hnew, contains_set, if_true, Bool.false_eq_true, if_false] at hsum
  simpa only [untabulated, Nat.add_zero] using hsum

/-- One round of the loop: it drops the id, or expands it on its first visit. -/
theorem upstreamVisit_cases (s : Scheduler) (id : StepId) (table : UpstreamTable) :
    Tabulates table (s.upstreamVisit id table).2 ∧
      ((∃ ref, s.getStep id = some ref) → s.isDone id = false →
        (s.upstreamVisit id table).2.contains id = true) ∧
      ((s.upstreamVisit id table).1 = [] ∨
        ∃ ref, s.getStep id = some ref ∧ table.contains id = false ∧
          s.upstreamVisit id table =
            (id :: (s.stepAt ref).deps.elems, table.set id .none)) := by
  have hself : Tabulates table table := fun _ h => h
  unfold upstreamVisit
  cases hget : s.getStep id with
  | none => exact ⟨hself, fun ⟨_, h⟩ => (by cases h), .inl rfl⟩
  | some ref =>
      dsimp only
      by_cases hdone : (s.stepAt ref).status = .done
      · rw [if_pos hdone]
        refine ⟨hself, fun _ h => ?_, .inl rfl⟩
        simp only [isDone, hget, hdone, beq_self_eq_true, Bool.true_eq_false] at h
      · rw [if_neg hdone]
        cases hknown : table.get? id with
        | none =>
            have hnew : table.contains id = false := by
              simp only [Dict.contains, hknown, Option.isSome_none]
            dsimp only
            split
            · exact ⟨tabulates_set table id _, fun _ _ => contains_set .., .inr
                ⟨ref, rfl, hnew, rfl⟩⟩
            · exact ⟨tabulates_set table id _, fun _ _ => contains_set .., .inl rfl⟩
        | some known =>
            dsimp only
            split
            · exact ⟨tabulates_set table id _, fun _ _ => contains_set .., .inl rfl⟩
            · refine ⟨hself, fun _ _ => ?_, .inl rfl⟩
              simp only [Dict.contains, hknown, Option.isSome_some]

/-- The loop ends within its bound and tabulates every id it started with, but for
those of `DONE` steps. -/
theorem upstreamLoop_spec (fuel : ℕ) (stack : List StepId)
    (table : UpstreamTable) (hfuel : stack.length + s.untabulated table ≤ fuel) :
    ∃ table', s.upstreamLoop fuel stack table = .ok table' ∧ Tabulates table table' ∧
      ∀ id ∈ stack, (∃ ref, s.getStep id = some ref) → s.isDone id = false →
        table'.contains id = true := by
  induction fuel generalizing stack table with
  | zero =>
      obtain rfl : stack = [] := List.length_eq_zero_iff.mp (by omega)
      exact ⟨table, by rw [upstreamLoop], fun _ h => h, fun _ h => by cases h⟩
  | succ fuel ih =>
      cases stack with
      | nil => exact ⟨table, by rw [upstreamLoop], fun _ h => h, fun _ h => by cases h⟩
      | cons id stack =>
          obtain ⟨htabulates, hentered, hrounds⟩ := s.upstreamVisit_cases id table
          have hbound : ((s.upstreamVisit id table).1.reverse ++ stack).length +
              s.untabulated (s.upstreamVisit id table).2 ≤ fuel := by
            rw [List.length_cons] at hfuel
            rcases hrounds with hdropped | ⟨ref, hget, hnew, hvisit⟩
            · have hle := htabulates.untabulated_le (s := s)
              rw [hdropped, List.reverse_nil, List.nil_append]
              omega
            · have hle := untabulated_set hget hnew .none
              rw [hvisit]
              simp only [List.length_append, List.length_reverse, List.length_cons]
              unfold OrderedSet.size at hle
              omega
          obtain ⟨table', hloop, hlater, hstack⟩ := ih _ _ hbound
          refine ⟨table', by rw [upstreamLoop]; exact hloop,
            fun other h => hlater other (htabulates other h), ?_⟩
          intro other hother hpresent hlive
          rcases List.mem_cons.mp hother with rfl | hrest
          · exact hlater other (hentered hpresent hlive)
          · exact hstack other (List.mem_append_right _ hrest) hpresent hlive

theorem untabulated_le_bound (s : Scheduler) (table : UpstreamTable) :
    1 + s.untabulated table ≤ s.upstreamBound := by
  have hvalues : s.activeSteps = s.steps.entries.map Prod.snd := rfl
  rw [upstreamBound, hvalues, List.map_map]
  refine Nat.add_le_add_left (List.sum_le_sum fun entry _ => ?_) 1
  dsimp only [Function.comp]
  split <;> omega

/-- `_upstream_status` fails on the ids of `DONE` steps only. -/
theorem upstreamStatus_spec (s : Scheduler) {id : StepId} (table : UpstreamTable)
    (hlive : s.isDone id = false) :
    ∃ answer, s.upstreamStatus id table = .ok answer := by
  unfold upstreamStatus
  cases htable : table.get? id with
  | some status => exact ⟨_, rfl⟩
  | none =>
      cases hget : s.getStep id with
      | none => exact ⟨_, rfl⟩
      | some ref =>
          obtain ⟨table', hloop, -, hentered⟩ := upstreamLoop_spec s.upstreamBound [id]
            table (untabulated_le_bound s table)
          have hentry := hentered id (List.mem_singleton_self id) ⟨ref, hget⟩ hlive
          obtain ⟨status, hstatus⟩ := Option.isSome_iff_exists.mp hentry
          dsimp only
          rw [hloop]
          dsimp only
          rw [hstatus]
          exact ⟨_, rfl⟩

/-! ## Counting -/

theorem Greets.isDone (hgreets : Greets s t) (id : StepId) : t.isDone id = s.isDone id := by
  simp only [Scheduler.isDone, hgreets.getStep, hgreets.stepAt]

theorem Greets.getSteps (hgreets : Greets s t) (worker : WorkerId) (statuses : List Status) :
    (t.workerAt worker).getSteps t statuses = (s.workerAt worker).getSteps s statuses := by
  obtain ⟨hid, hsteps, -⟩ := hgreets.worker worker
  simp only [Worker.getSteps, Worker.selfSteps, Worker.stateSteps, activeStepsByStatus, hid,
    hsteps, hgreets.stepAt, hgreets.bucket]

/-- The steps that `count_pending` looks at. -/
def countedSteps (s : Scheduler) (worker : WorkerId) : List Ref :=
  (s.workerAt worker).getSteps s [.running] ++
    (s.workerAt worker).getSteps s [.pending, .failed]

/-- No step that `count_pending` looks at has the id of a `DONE` step. -/
def CountsLiveSteps (s : Scheduler) (worker : WorkerId) : Prop :=
  ∀ ref ∈ s.countedSteps worker, s.isDone (s.stepAt ref).id = false

instance (s : Scheduler) (worker : WorkerId) : Decidable (s.CountsLiveSteps worker) := by
  unfold CountsLiveSteps; infer_instance

theorem Sound.mem_getSteps (hsound : s.Sound) {worker : WorkerId} {statuses : List Status}
    {ref : Ref} (hmem : ref ∈ (s.workerAt worker).getSteps s statuses) :
    s.Refers ref ∧ (s.stepAt ref).status ∈ statuses ∧ worker ∈ (s.stepAt ref).workers := by
  unfold Worker.getSteps at hmem
  dsimp only at hmem
  split_ifs at hmem
  · obtain ⟨hlisted, hstatus⟩ := List.mem_filter.mp hmem
    exact ⟨.inr ⟨worker, hlisted⟩, of_decide_eq_true hstatus, hsound.rostered.knows hlisted⟩
  · obtain ⟨hactive, hknows⟩ := List.mem_filter.mp hmem
    obtain ⟨hfiled, hstatus⟩ := hsound.index.mem_activeStepsByStatus.mp hactive
    have hid := hsound.rostered.worker_id worker
    exact ⟨.inl hfiled, hstatus, hid ▸ of_decide_eq_true hknows⟩

section Listed

variable {worker : WorkerId}

/-- No step of the table is counted under the id of a `DONE` one. -/
theorem Sound.countsLiveSteps (hsound : s.Sound)
    (hlisted : ∀ {statuses ref}, ref ∈ (s.workerAt worker).getSteps s statuses → s.Filed ref) :
    s.CountsLiveSteps worker := by
  have hlive : ∀ {statuses ref}, Status.done ∉ statuses →
      ref ∈ (s.workerAt worker).getSteps s statuses → s.isDone (s.stepAt ref).id = false := by
    intro statuses ref hdone href
    obtain ⟨-, hstatus, -⟩ := hsound.mem_getSteps href
    have hget : s.getStep (s.stepAt ref).id = some ref := hlisted href
    simp only [isDone, hget, beq_eq_false_iff_ne]
    exact ne_of_mem_of_not_mem hstatus hdone
  intro ref href
  rcases List.mem_append.mp href with href | href
  · exact hlive (by decide) href
  · exact hlive (by decide) href

/-- `get_work` looks at steps of the table only. -/
theorem Sound.filed_relevantSteps (hsound : s.Sound) {args : GetWorkArgs} {config : Config}
    {now : Time} {ref : Ref}
    (hlisted : ∀ {statuses ref}, ref ∈ (s.workerAt args.worker).getSteps s statuses → s.Filed ref)
    (hrelevant : ref ∈ (s.relevantSteps args config now).1) : s.Filed ref := by
  unfold relevantSteps at hrelevant
  dsimp only at hrelevant
  split_ifs at hrelevant
  · cases hrelevant
  · exact hlisted hrelevant
  · exact (hsound.index.mem_activeStepsByStatus.mp hrelevant).1

end Listed

/-- What a loop of `count_pending` promises that meets no stale step. -/
def countingSafely (s : Scheduler) : Contract Raised Scheduler where
  inv := Greets s
  rel := Greets
  allows _ := False
  refl := .refl
  trans := .trans

theorem Meets.of_ok {α : Type} {contract : Contract Raised Scheduler}
    {outcome : Except Raised α} (hok : ∃ value, outcome = .ok value) (hinv : contract.inv s) :
    Meets contract (liftExcept outcome) s := by
  obtain ⟨value, rfl⟩ := hok
  exact .pure value hinv

theorem listRunning_safe (now : Time) {refs : List Ref}
    (hlive : ∀ ref ∈ refs, s.isDone (s.stepAt ref).id = false)
    (howned : ∀ ref ∈ refs, (s.stepAt ref).workerRunning.isSome = true) (table : UpstreamTable) :
    Honours (countingSafely s) (listRunning now refs table) := by
  induction refs generalizing table with
  | nil => exact Honours.pure _
  | cons ref rest ih =>
      intro t hgreets
      have hrest := fun table => ih (fun ref h => hlive ref (List.mem_cons_of_mem _ h))
        (fun ref h => howned ref (List.mem_cons_of_mem _ h)) table
      obtain ⟨owner, howner⟩ :=
        Option.isSome_iff_exists.mp (howned ref (List.mem_cons_self ..))
      have hanswer : ∃ answer, t.upstreamStatus (t.stepAt ref).id table = .ok answer := by
        refine t.upstreamStatus_spec table ?_
        rw [hgreets.isDone, hgreets.stepAt]
        exact hlive ref (List.mem_cons_self ..)
      unfold listRunning
      refine .get_bind (.bind (Meets.of_ok hanswer hgreets) ?_)
      rintro ⟨upstream, table'⟩ u - hu
      dsimp only
      refine .ite (fun _ => hrest table' u hu) fun _ => ?_
      rw [hgreets.stepAt, howner]
      refine .bind (.modify (hu.trans (greets_ensureWorker u now owner))
        (greets_ensureWorker u now owner)) fun _ v _ hv => ?_
      exact .get_bind (.bind (hrest table' v hv) fun _ w _ hw => .pure _ hw)

theorem countPendingSteps_ok (worker : WorkerId) {refs : List Ref}
    (hlive : ∀ ref ∈ refs, s.isDone (s.stepAt ref).id = false)
    (hknown : ∀ ref ∈ refs, ∃ known, known ∈ (s.stepAt ref).workers) (table : UpstreamTable)
    (reply : PendingReply) :
    ∃ answer, s.countPendingSteps worker refs table reply = .ok answer := by
  induction refs generalizing table reply with
  | nil => exact ⟨reply, rfl⟩
  | cons ref rest ih =>
      have hrest := fun table reply => ih (fun ref h => hlive ref (List.mem_cons_of_mem _ h))
        (fun ref h => hknown ref (List.mem_cons_of_mem _ h)) table reply
      obtain ⟨⟨upstream, table'⟩, hanswer⟩ :=
        s.upstreamStatus_spec table (hlive ref (List.mem_cons_self ..))
      obtain ⟨known, hmem⟩ := hknown ref (List.mem_cons_self ..)
      unfold countPendingSteps
      dsimp only
      rw [hanswer]
      dsimp only
      split
      · exact hrest table' reply
      · cases hlast : (s.stepAt ref).workers.peekLast with
        | none =>
            have hempty : (s.stepAt ref).workers.elems = [] :=
              List.getLast?_eq_none_iff.mp hlast
            exact absurd (hempty ▸ hmem : known ∈ ([] : List WorkerId)) List.not_mem_nil
        | some last => exact hrest table' _

/-- `count_pending` cannot fail where it meets no stale step. -/
theorem Sound.countPending_safe (hsound : s.Sound) {worker : WorkerId}
    (hlive : s.CountsLiveSteps worker) (moment : Moment) :
    Meets (countingSafely s) (countPending moment worker) s := by
  have hgreets := greets_ensureWorker s moment.now worker
  have hcounted : ∀ {ref statuses}, ref ∈ (s.workerAt worker).getSteps s statuses →
      statuses = [.running] ∨ statuses = [.pending, .failed] →
      s.isDone (s.stepAt ref).id = false := by
    rintro ref statuses href (rfl | rfl)
    · exact hlive ref (List.mem_append_left _ href)
    · exact hlive ref (List.mem_append_right _ href)
  unfold countPending
  refine .bind (.modify hgreets hgreets) fun _ t _ ht => .get_bind (.bind ?_ ?_)
  · rw [ht.getSteps]
    refine listRunning_safe moment.now (fun ref href => hcounted href (.inl rfl))
      (fun ref href => ?_) ∅ t ht
    obtain ⟨hrefers, hstatus, -⟩ := hsound.mem_getSteps href
    exact (hsound.recorded ref hrefers).owner (List.mem_singleton.mp hstatus)
  · rintro ⟨running, table⟩ u - hu
    refine .get_bind (Meets.of_ok (countPendingSteps_ok worker ?_ ?_ table _) hu)
    · intro ref href
      rw [hu.getSteps] at href
      rw [hu.isDone, hu.stepAt]
      exact hcounted href (.inr rfl)
    · intro ref href
      rw [hu.getSteps] at href
      rw [hu.stepAt]
      exact ⟨worker, (hsound.mem_getSteps href).2.2⟩

/-! ## Stale steps -/

/-- No id of a `DONE` step has an entry. -/
def Omits (s : Scheduler) (table : UpstreamTable) : Prop :=
  ∀ id, s.isDone id = true → table.get? id = none

theorem Omits.visit {table : UpstreamTable} (homits : s.Omits table) (id : StepId) :
    s.Omits (s.upstreamVisit id table).2 := by
  have hset : ∀ {ref status}, s.getStep id = some ref → (s.stepAt ref).status ≠ .done →
      s.Omits (table.set id status) := by
    intro ref status hget hlive other hdone
    rw [Dict.get?_set, if_neg]
    · exact homits other hdone
    · rintro rfl
      unfold Scheduler.isDone at hdone
      rw [hget] at hdone
      exact hlive (beq_iff_eq.mp hdone)
  unfold upstreamVisit
  cases hget : s.getStep id with
  | none => exact homits
  | some ref =>
      dsimp only
      by_cases hdone : (s.stepAt ref).status = .done
      · rw [if_pos hdone]
        exact homits
      · rw [if_neg hdone]
        cases table.get? id with
        | none =>
            dsimp only
            split <;> exact hset hget hdone
        | some known =>
            dsimp only
            split
            · exact hset hget hdone
            · exact homits

theorem Omits.loop {fuel : ℕ} {stack : List StepId} {table table' : UpstreamTable}
    (homits : s.Omits table) (hloop : s.upstreamLoop fuel stack table = .ok table') :
    s.Omits table' := by
  induction fuel generalizing stack table with
  | zero =>
      cases stack with
      | nil => cases hloop; exact homits
      | cons id stack => cases hloop
  | succ fuel ih =>
      cases stack with
      | nil => cases hloop; exact homits
      | cons id stack => exact ih (homits.visit id) hloop

/-- `_upstream_status` answers for the ids of other steps only. -/
theorem Omits.status {id : StepId} {table table' : UpstreamTable} {status : Option UpstreamStatus}
    (homits : s.Omits table) (hanswer : s.upstreamStatus id table = .ok (status, table')) :
    s.isDone id = false ∧ s.Omits table' := by
  rw [← Bool.not_eq_true]
  unfold upstreamStatus at hanswer
  cases hknown : table.get? id with
  | some known =>
      rw [hknown] at hanswer
      cases hanswer
      refine ⟨fun hdone => ?_, homits⟩
      rw [homits id hdone] at hknown
      cases hknown
  | none =>
      rw [hknown] at hanswer
      dsimp only at hanswer
      cases hget : s.getStep id with
      | none =>
          rw [hget] at hanswer
          cases hanswer
          refine ⟨fun hdone => ?_, homits⟩
          unfold Scheduler.isDone at hdone
          rw [hget] at hdone
          cases hdone
      | some ref =>
          rw [hget] at hanswer
          dsimp only at hanswer
          cases hloop : s.upstreamLoop s.upstreamBound [id] table with
          | error raised =>
              rw [hloop] at hanswer
              cases hanswer
          | ok last =>
              have hlast := homits.loop hloop
              rw [hloop] at hanswer
              dsimp only at hanswer
              cases hentry : last.get? id with
              | none =>
                  rw [hentry] at hanswer
                  cases hanswer
              | some found =>
                  rw [hentry] at hanswer
                  cases hanswer
                  refine ⟨fun hdone => ?_, hlast⟩
                  rw [hlast id hdone] at hentry
                  cases hentry

theorem exec_liftExcept_eq_ok {α : Type} {outcome : Except Raised α} {value : α}
    (hrun : (liftExcept outcome).exec s = (.ok value, t)) : outcome = .ok value ∧ t = s := by
  cases outcome with
  | ok found => cases hrun; exact ⟨rfl, rfl⟩
  | error raised => cases hrun

theorem listRunning_live {now : Time} {refs : List Ref} {table table' : UpstreamTable}
    {entries : List RunningStep} (homits : s.Omits table)
    (hrun : (listRunning now refs table).exec s = (.ok (entries, table'), t)) :
    (∀ ref ∈ refs, s.isDone (s.stepAt ref).id = false) ∧ s.Omits table' ∧ Greets s t := by
  induction refs generalizing s table entries with
  | nil =>
      cases hrun
      exact ⟨nofun, homits, .refl _⟩
  | cons ref rest ih =>
      unfold listRunning at hrun
      rw [exec_get_bind] at hrun
      obtain ⟨⟨upstream, first⟩, middle, hfirst, hrun⟩ := exec_bind_eq_ok hrun
      obtain ⟨hanswer, hsame⟩ := exec_liftExcept_eq_ok hfirst
      rw [hsame] at hrun
      obtain ⟨hlive, homits⟩ := homits.status hanswer
      dsimp only at hrun
      split at hrun
      · obtain ⟨hrest, hlast⟩ := ih homits hrun
        exact ⟨List.forall_mem_cons.mpr ⟨hlive, hrest⟩, hlast⟩
      · cases howner : (s.stepAt ref).workerRunning with
        | none =>
            rw [howner] at hrun
            cases hrun
        | some owner =>
            rw [howner] at hrun
            dsimp only at hrun
            rw [exec_modify_bind, exec_get_bind] at hrun
            obtain ⟨⟨others, last⟩, v, hlast, hrun⟩ := exec_bind_eq_ok hrun
            cases hrun
            have hgreets := greets_ensureWorker s now owner
            have homits' : (s.ensureWorker now owner).Omits first := fun id hdone =>
              homits id (hgreets.isDone id ▸ hdone)
            obtain ⟨hrest, hkeeps, hafter⟩ := ih homits' hlast
            refine ⟨List.forall_mem_cons.mpr ⟨hlive, fun other hother => ?_⟩, fun id hdone => ?_,
              hgreets.trans hafter⟩
            · rw [← hgreets.isDone, ← hgreets.stepAt]
              exact hrest other hother
            · exact hkeeps id (by rw [hgreets.isDone]; exact hdone)

theorem countPendingSteps_live {worker : WorkerId} {refs : List Ref} {table : UpstreamTable}
    {reply answer : PendingReply} (homits : s.Omits table)
    (hcount : s.countPendingSteps worker refs table reply = .ok answer) :
    ∀ ref ∈ refs, s.isDone (s.stepAt ref).id = false := by
  induction refs generalizing table reply with
  | nil => exact nofun
  | cons ref rest ih =>
      unfold countPendingSteps at hcount
      dsimp only at hcount
      cases hanswer : s.upstreamStatus (s.stepAt ref).id table with
      | error raised =>
          rw [hanswer] at hcount
          cases hcount
      | ok answer =>
          obtain ⟨upstream, table'⟩ := answer
          obtain ⟨hlive, homits⟩ := homits.status hanswer
          rw [hanswer] at hcount
          dsimp only at hcount
          refine List.forall_mem_cons.mpr ⟨hlive, ?_⟩
          split at hcount
          · exact ih homits hcount
          · split at hcount
            · cases hcount
            · exact ih homits hcount

/-- `count_pending` fails where it meets a stale step. -/
theorem countPending_live {moment : Moment} {worker : WorkerId} {reply : PendingReply}
    (hrun : (countPending moment worker).exec s = (.ok reply, t)) : s.CountsLiveSteps worker := by
  have hgreets := greets_ensureWorker s moment.now worker
  unfold countPending at hrun
  rw [exec_modify_bind, exec_get_bind] at hrun
  obtain ⟨⟨running, table⟩, u, hlist, hrun⟩ := exec_bind_eq_ok hrun
  obtain ⟨hrunning, homits, hafter⟩ := listRunning_live (fun _ _ => Dict.get?_empty _) hlist
  rw [exec_get_bind] at hrun
  have hu := hgreets.trans hafter
  have hwaiting := countPendingSteps_live
    (fun id hdone => homits id (by rw [← hafter.isDone]; exact hdone))
    (exec_liftExcept_eq_ok hrun).1
  intro ref href
  rcases List.mem_append.mp href with href | href
  · rw [← hgreets.isDone, ← hgreets.stepAt]
    exact hrunning ref (by rw [hgreets.getSteps]; exact href)
  · rw [← hu.isDone, ← hu.stepAt]
    exact hwaiting ref (by rw [hu.getSteps]; exact href)

end Scheduler

open Scheduler

namespace Env

variable (env : Env)

/-- The request looks at steps of the table only, and counts no step whose id
belongs to a `DONE` one. -/
def AnswersLiveSteps (s : Scheduler) (event : Event) : Prop :=
  match event.request with
  | .countPending worker => s.CountsLiveSteps worker
  | .getWork args =>
      env.LooksAtFiledSteps s event.moment args ∧
        (((env.received s event.moment args).workerAt args.worker).enabled = true →
          (env.ranked s event.moment args).CountsLiveSteps args.worker)
  | _ => True

instance (s : Scheduler) (event : Event) : Decidable (env.AnswersLiveSteps s event) := by
  obtain ⟨moment, request⟩ := event
  induction request using Request.casesOn <;> dsimp only [AnswersLiveSteps] <;> infer_instance

/-- `count_pending` and `get_work` return a reply. -/
def Answers (s : Scheduler) (event : Event) : Prop :=
  match event.request with
  | .countPending _ | .getWork _ => env.raised s event = none
  | _ => True

variable {env} {s : Scheduler}

theorem AnswersLiveSteps.handsOut {event : Event} (hlive : env.AnswersLiveSteps s event) :
    HandsOutFiledSteps env s event := by
  obtain ⟨moment, request⟩ := event
  cases request with
  | getWork args => exact hlive.1
  | _ => trivial

theorem answers {event : Event} (hsound : s.Sound) (hlive : env.AnswersLiveSteps s event) :
    env.Answers s event := by
  have hnone : (∀ error, env.outcome s event ≠ .error error) → env.raised s event = none := by
    intro h
    unfold raised
    cases houtcome : env.outcome s event with
    | ok => rfl
    | error error => exact absurd houtcome (h error)
  obtain ⟨moment, request⟩ := event
  cases request with
  | countPending worker =>
      refine hnone fun error herror => ?_
      obtain ⟨-, -, hallowed⟩ :=
        reply_meets Response.pending (hsound.countPending_safe hlive moment)
      exact hallowed error herror
  | getWork args =>
      refine hnone fun error herror => ?_
      obtain ⟨outcome, hworks, houtcome⟩ := hsound.after_getWork env moment hlive.1
      rw [houtcome] at herror
      generalize env.after s ⟨moment, .getWork args⟩ = t at hworks
      cases hworks with
      | refused => cases herror
      | served => cases herror
      | failed hreceives henabled hprepares hgreets hraises =>
          have hranked := (hsound.receives hreceives).prepares hprepares
          obtain ⟨-, -, hallowed⟩ := hranked.countPending_safe (hlive.2 henabled) moment
          exact hallowed _ (congrArg Prod.fst hraises)
  | _ => trivial

/-- In every run whose requests look at live steps only, `count_pending` and
`get_work` return. -/
theorem answers_along {resources : Resources} {events : List Event}
    (hlive : Along env.after env.AnswersLiveSteps (.initial resources) events) :
    Along env.after env.Answers (.initial resources) events := by
  have halong := along_invariant env.after _ (Lasting Sound)
    (fun _ _ hlasting hevent => (Sound.after hlasting (AnswersLiveSteps.handsOut hevent)).1)
      (initial_sound resources) hlive
  exact halong.mono fun s event h => answers h.1.1 h.2

end Env

/-- The assistant outlives its step, and another worker creates it anew and is done
with it. -/
def shadowingRun : List Event :=
  outlivingRun ++
    [requestAt 604 (.addStep { worker := secondWorker, stepId := "a", status := .done })]

theorem shadowed_step_raises :
    Timely (shadowingRun ++ [requestAt 605 (.countPending firstWorker)]) ∧
      ¬defaultEnv.Answers (defaultEnv.run (.initial ∅) shadowingRun)
        (requestAt 605 (.countPending firstWorker)) := by
  refine ⟨by decide +kernel, ?_⟩
  change ¬(defaultEnv.raised _ _ = none)
  decide +kernel

theorem clean_run_answers : Along defaultEnv.after defaultEnv.Answers (.initial ∅)
    (cleanRun ++ [requestAt 901 (.countPending secondWorker)]) :=
  Env.answers_along (by decide +kernel)

end Trun
