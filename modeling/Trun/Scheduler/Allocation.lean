import Trun.Scheduler.Serving

/-!
# Rows and references

What holds of every state that any requests lead to, however the index by status
may have suffered: a row refers to an allocated object that carries its id, and an
entry of the index to one that carries its id and its status (`Keyed`).

Apart from the changes of a status and the removal of rows, the handlers only make
`Inserts`, so a contract that allows these is kept by every handler as soon as it is kept
by `set_status` and by removals (`Admits`).
-/

namespace Trun

open Program

namespace Scheduler

variable {s t : Scheduler}

/-- Rows refer to allocated objects with their ids. -/
def Rows (s : Scheduler) : Prop :=
  ∀ id ref, s.getStep id = some ref → ref < s.nextRef ∧ (s.stepAt ref).id = id

/-- Objects keep their ids, and new rows refer to new objects. -/
structure Grows (s t : Scheduler) : Prop where
  saved : t.saved = s.saved
  nextRef_le : s.nextRef ≤ t.nextRef
  id : ∀ ref < s.nextRef, (t.stepAt ref).id = (s.stepAt ref).id
  row : ∀ id ref, t.getStep id = some ref → s.getStep id = some ref ∨
    (s.nextRef ≤ ref ∧ ref < t.nextRef ∧ (t.stepAt ref).id = id)

theorem Grows.refl (s : Scheduler) : Grows s s :=
  ⟨rfl, le_refl _, fun _ _ => rfl, fun _ _ h => .inl h⟩

theorem Grows.trans {u : Scheduler} (hst : Grows s t) (htu : Grows t u) : Grows s u where
  saved := htu.saved.trans hst.saved
  nextRef_le := hst.nextRef_le.trans htu.nextRef_le
  id := fun ref hlt =>
    (htu.id ref (hlt.trans_le hst.nextRef_le)).trans (hst.id ref hlt)
  row := fun id ref hget => by
    rcases htu.row id ref hget with hold | ⟨hle, hlt, hid⟩
    · rcases hst.row id ref hold with hrow | ⟨hle, hlt, hid⟩
      · exact .inl hrow
      · exact .inr ⟨hle, hlt.trans_le htu.nextRef_le, (htu.id ref hlt).trans hid⟩
    · exact .inr ⟨hst.nextRef_le.trans hle, hlt, hid⟩

theorem Grows.rows (hgrows : Grows s t) (hrows : s.Rows) : t.Rows := by
  intro id ref hget
  rcases hgrows.row id ref hget with hold | ⟨-, hlt, hid⟩
  · obtain ⟨hlt, hid⟩ := hrows id ref hold
    exact ⟨hlt.trans_le hgrows.nextRef_le, (hgrows.id ref hlt).trans hid⟩
  · exact ⟨hlt, hid⟩

/-- No row is new for an object that has been made. -/
theorem Grows.filed_back (hgrows : Grows s t) {ref : Ref} (hlt : ref < s.nextRef)
    (hfiled : t.Filed ref) : s.Filed ref := by
  unfold Filed at hfiled
  rw [hgrows.id ref hlt] at hfiled
  exact (hgrows.row _ ref hfiled).resolve_right fun h => absurd hlt (Nat.not_lt.mpr h.1)

/-! ## Keys -/

/-- What is left of the agreement between rows and index if removed steps are handed out: an entry
is filed under the id and the status of its object, and the ids of the running rows are listed as
running. -/
structure Keyed (s : Scheduler) : Prop where
  rows : s.Rows
  entry : ∀ {status id ref}, (s.bucket status).get? id = some ref →
    ref < s.nextRef ∧ (s.stepAt ref).id = id ∧ (s.stepAt ref).status = status
  running : ∀ {id ref}, s.getStep id = some ref → (s.stepAt ref).status = .running →
    (s.bucket .running).contains id = true
  /-- Objects that are not made yet have no status of a step. -/
  blank : ∀ {ref}, s.nextRef ≤ ref → (s.stepAt ref).status = .unknown

/-- The object may get another status: where it runs, it is in the step table. -/
def Movable (s : Scheduler) (ref : Ref) : Prop :=
  ref < s.nextRef ∧ ((s.stepAt ref).status = .running → s.Filed ref)

theorem Keyed.movable (hkeyed : s.Keyed) {id : StepId} {ref : Ref}
    (hget : s.getStep id = some ref) : s.Movable ref := by
  obtain ⟨hlt, hid⟩ := hkeyed.rows id ref hget
  exact ⟨hlt, fun _ => by rwa [Filed, hid]⟩

/-- An object that waits. -/
theorem Keyed.movable_of_status (hkeyed : s.Keyed) {ref : Ref}
    (hunknown : (s.stepAt ref).status ≠ .unknown) (hrunning : (s.stepAt ref).status ≠ .running) :
    s.Movable ref :=
  ⟨Nat.lt_of_not_le fun hle => hunknown (hkeyed.blank hle), fun h => absurd h hrunning⟩

section SamePlaces

variable (hnext : t.nextRef = s.nextRef) (hsteps : t.steps = s.steps)
  (hplace : ∀ ref, (t.stepAt ref).id = (s.stepAt ref).id ∧
    (t.stepAt ref).status = (s.stepAt ref).status)
include hnext hsteps hplace

/-- Writes that leave the tables, the ids and the status alone. -/
theorem Keyed.of_same (hkeyed : s.Keyed) (hindex : t.statusSteps = s.statusSteps) : t.Keyed where
  rows := fun id ref hget => by
    rw [getStep, hsteps] at hget
    rw [hnext, (hplace ref).1]
    exact hkeyed.rows id ref hget
  entry := fun {status id ref} hget => by
    rw [bucket, hindex] at hget
    rw [hnext, (hplace ref).1, (hplace ref).2]
    exact hkeyed.entry hget
  running := fun {id ref} hget hstatus => by
    rw [getStep, hsteps] at hget
    rw [(hplace ref).2] at hstatus
    rw [bucket, hindex]
    exact hkeyed.running hget hstatus
  blank := fun {ref} hle => by
    rw [hnext] at hle
    rw [(hplace ref).2]
    exact hkeyed.blank hle

theorem Movable.of_same {ref : Ref} (hmovable : s.Movable ref) : t.Movable ref := by
  unfold Movable Filed getStep at hmovable ⊢
  rw [hnext, hsteps, (hplace ref).1, (hplace ref).2]
  exact hmovable

end SamePlaces

section UpdateStep

variable {ref : Ref} {change : Step → Step}
  (hplace : ∀ step, (change step).id = step.id ∧ (change step).status = step.status)
include hplace

theorem places_updateStep (other : Ref) :
    ((s.updateStep ref change).stepAt other).id = (s.stepAt other).id ∧
      ((s.updateStep ref change).stepAt other).status = (s.stepAt other).status := by
  rw [stepAt_updateStep]
  split
  · exact hplace _
  · exact ⟨rfl, rfl⟩

theorem Keyed.updateStep (hkeyed : s.Keyed) : (s.updateStep ref change).Keyed :=
  Keyed.of_same (s := s) rfl rfl (places_updateStep hplace) hkeyed rfl

theorem Movable.updateStep {other : Ref} (hmovable : s.Movable other) :
    (s.updateStep ref change).Movable other :=
  Movable.of_same (s := s) (t := s.updateStep ref change) rfl rfl (places_updateStep hplace)
    hmovable

end UpdateStep

/-- A row may be filed under its status once more. -/
theorem Keyed.fileStep (hkeyed : s.Keyed) {id : StepId} {ref : Ref}
    (hget : s.getStep id = some ref) : (s.fileStep ref).Keyed where
  rows := hkeyed.rows
  entry := fun {status id' ref'} hentry => by
    rw [bucket_fileStep] at hentry
    split at hentry
    · rename_i hstatus
      rw [Dict.get?_set] at hentry
      split at hentry
      · rename_i hid
        obtain rfl := Option.some.inj hentry
        exact ⟨(hkeyed.rows id ref hget).1, hid.symm, hstatus.symm⟩
      · exact hkeyed.entry hentry
    · exact hkeyed.entry hentry
  running := fun {id' ref'} hrow hstatus => by
    have hcontains := hkeyed.running hrow hstatus
    rw [bucket_fileStep]
    split
    · rw [Dict.contains_iff] at hcontains ⊢
      obtain ⟨found, hfound⟩ := hcontains
      rw [Dict.get?_set]
      split
      · exact ⟨ref, rfl⟩
      · exact ⟨found, hfound⟩
    · exact hcontains
  blank := hkeyed.blank

/-- A new row is filed, so it may have any status but that of a run. -/
theorem Keyed.setdefaultStep (hkeyed : s.Keyed) {step : Step} (hstatus : step.status ≠ .running) :
    (s.setdefaultStep step).Keyed := by
  cases hget : s.getStep step.id with
  | some ref =>
      simp only [Scheduler.setdefaultStep, insertStep, hget]
      exact hkeyed.fileStep hget
  | none =>
      have hlt : ∀ {ref : Ref}, ref < s.nextRef → ref ≠ s.nextRef := fun h => Nat.ne_of_lt h
      refine ⟨fun id ref hrow => ?_, fun {status id ref} hentry => ?_,
        fun {id ref} hrow hrunning => ?_, fun {ref} hle => ?_⟩
      · rw [getStep_setdefaultStep hget] at hrow
        rw [nextRef_setdefaultStep hget, stepAt_setdefaultStep hget]
        split at hrow
        · rename_i hid
          obtain rfl := Option.some.inj hrow
          exact ⟨Nat.lt_succ_self _, by rw [if_pos rfl, hid]⟩
        · obtain ⟨hold, hid⟩ := hkeyed.rows id ref hrow
          exact ⟨Nat.lt_succ_of_lt hold, by rw [if_neg (hlt hold), hid]⟩
      · rw [get?_bucket_setdefaultStep hget] at hentry
        rw [nextRef_setdefaultStep hget, stepAt_setdefaultStep hget]
        split at hentry
        · rename_i hplace
          obtain rfl := Option.some.inj hentry
          rw [if_pos rfl]
          exact ⟨Nat.lt_succ_self _, hplace.2.symm, hplace.1.symm⟩
        · obtain ⟨hold, hplace⟩ := hkeyed.entry hentry
          rw [if_neg (hlt hold)]
          exact ⟨Nat.lt_succ_of_lt hold, hplace⟩
      · rw [getStep_setdefaultStep hget] at hrow
        rw [stepAt_setdefaultStep hget] at hrunning
        split at hrow
        · obtain rfl := Option.some.inj hrow
          rw [if_pos rfl] at hrunning
          exact absurd hrunning hstatus
        · rename_i hid
          rw [if_neg (hlt (hkeyed.rows id ref hrow).1)] at hrunning
          have hcontains := hkeyed.running hrow hrunning
          rw [Dict.contains_iff] at hcontains ⊢
          rw [get?_bucket_setdefaultStep hget, if_neg fun h => hid h.2]
          exact hcontains
      · rw [nextRef_setdefaultStep hget] at hle
        rw [stepAt_setdefaultStep hget, if_neg (Nat.ne_of_gt hle)]
        exact hkeyed.blank (Nat.le_of_succ_le hle)

theorem Movable.setdefaultStep {ref : Ref} (hmovable : s.Movable ref) (step : Step) :
    (s.setdefaultStep step).Movable ref := by
  cases hget : s.getStep step.id with
  | some other =>
      simp only [Scheduler.setdefaultStep, insertStep, hget]
      exact hmovable
  | none =>
      obtain ⟨hlt, hfiled⟩ := hmovable
      unfold Movable Filed
      rw [nextRef_setdefaultStep hget, getStep_setdefaultStep hget, stepAt_setdefaultStep hget,
        if_neg (Nat.ne_of_lt hlt)]
      refine ⟨Nat.lt_succ_of_lt hlt, fun hrunning => ?_⟩
      have hrow : s.getStep (s.stepAt ref).id = some ref := hfiled hrunning
      rw [if_neg fun hid => by rw [hid, hget] at hrow; cases hrow]
      exact hrow

/-! ## Edits -/

end Scheduler

namespace Step

/-- The id of a step, and what is kept of its failures. -/
def ledger (step : Step) : StepId × List Time × Option Time × List Mark :=
  (step.id, step.failures, step.firstFailureTime, step.marks)

/-- No failures are on record. -/
def Blank (step : Step) : Prop := step.ledger = (step.id, [], none, [])

variable {step other : Step}

/-- The accounting ends in a run only if one was asked for. -/
theorem account_running (step : Step) (now : Time) (newStatus : Status) :
    (step.account now newStatus).2 = .running ↔ newStatus = .running := by
  unfold account
  dsimp only
  split_ifs with hfailed hexcessive hdisabled
  · simp [hfailed.1]
  · simp [hfailed.1]
  · simp [hdisabled]
  · rfl

theorem id_of_ledger (hledger : other.ledger = step.ledger) : other.id = step.id :=
  congrArg Prod.fst hledger

theorem Blank.of_ledger (hblank : step.Blank) (hledger : other.ledger = step.ledger) :
    other.Blank := by
  unfold Blank at hblank ⊢
  rw [hledger, hblank, id_of_ledger hledger]

end Step

namespace Scheduler

variable {s t : Scheduler}

/-- The tables grow, and no failure is added or forgotten. -/
structure Edits (s t : Scheduler) : Prop where
  saved : t.saved = s.saved
  nextRef_le : s.nextRef ≤ t.nextRef
  row : ∀ id ref, t.getStep id = some ref → s.getStep id = some ref ∨
    (s.nextRef ≤ ref ∧ ref < t.nextRef ∧ (t.stepAt ref).id = id)
  object : ∀ ref, (t.stepAt ref).ledger = (s.stepAt ref).ledger ∨
    (s.nextRef ≤ ref ∧ (t.stepAt ref).Blank)

theorem Edits.grows (hedits : Edits s t) : Grows s t where
  saved := hedits.saved
  nextRef_le := hedits.nextRef_le
  id := fun ref hlt =>
    (hedits.object ref).elim Step.id_of_ledger fun hnew => absurd hnew.1 (Nat.not_le.mpr hlt)
  row := hedits.row

theorem Edits.refl (s : Scheduler) : Edits s s :=
  ⟨rfl, le_refl _, fun _ _ h => .inl h, fun _ => .inl rfl⟩

theorem Edits.trans {u : Scheduler} (hst : Edits s t) (htu : Edits t u) : Edits s u where
  saved := htu.saved.trans hst.saved
  nextRef_le := hst.nextRef_le.trans htu.nextRef_le
  row := (hst.grows.trans htu.grows).row
  object := fun ref => by
    rcases htu.object ref with hsame | ⟨hle, hblank⟩
    · rcases hst.object ref with hfirst | ⟨hle, hblank⟩
      · exact .inl (hsame.trans hfirst)
      · exact .inr ⟨hle, hblank.of_ledger hsame⟩
    · exact .inr ⟨hst.nextRef_le.trans hle, hblank⟩

theorem edits_of_same (hsaved : t.saved = s.saved) (hnext : t.nextRef = s.nextRef)
    (hledger : ∀ ref, (t.stepAt ref).ledger = (s.stepAt ref).ledger)
    (hsteps : t.steps = s.steps) : Edits s t where
  saved := hsaved
  nextRef_le := le_of_eq hnext.symm
  row := fun id ref hget => by
    unfold getStep at hget ⊢
    rw [hsteps] at hget
    exact .inl hget
  object := fun ref => .inl (hledger ref)

/-- Edits under which the index by status stays in order. -/
structure Inserts (s t : Scheduler) : Prop extends Edits s t where
  keyed : s.Keyed → t.Keyed
  movable : s.Keyed → ∀ ref, s.Movable ref → t.Movable ref

theorem Inserts.refl (s : Scheduler) : Inserts s s := ⟨.refl s, id, fun _ _ h => h⟩

theorem Inserts.trans {u : Scheduler} (hst : Inserts s t) (htu : Inserts t u) : Inserts s u where
  toEdits := hst.toEdits.trans htu.toEdits
  keyed := fun hkeyed => htu.keyed (hst.keyed hkeyed)
  movable := fun hkeyed ref h => htu.movable (hst.keyed hkeyed) ref (hst.movable hkeyed ref h)

theorem inserts_of_same (hsaved : t.saved = s.saved) (hnext : t.nextRef = s.nextRef)
    (hledger : ∀ ref, (t.stepAt ref).ledger = (s.stepAt ref).ledger)
    (hstatus : ∀ ref, (t.stepAt ref).status = (s.stepAt ref).status)
    (hsteps : t.steps = s.steps) (hindex : t.statusSteps = s.statusSteps) : Inserts s t := by
  have hplace : ∀ ref, (t.stepAt ref).id = (s.stepAt ref).id ∧
      (t.stepAt ref).status = (s.stepAt ref).status := fun ref =>
    ⟨Step.id_of_ledger (hledger ref), hstatus ref⟩
  exact ⟨edits_of_same hsaved hnext hledger hsteps,
    fun hkeyed => hkeyed.of_same hnext hsteps hplace hindex,
    fun _ _ h => h.of_same hnext hsteps hplace⟩

theorem inserts_updateStep {ref : Ref} {change : Step → Step}
    (hledger : ∀ step, (change step).ledger = step.ledger)
    (hstatus : ∀ step, (change step).status = step.status) :
    Inserts s (s.updateStep ref change) :=
  inserts_of_same rfl rfl
    (fun other => by rw [stepAt_updateStep]; split <;> simp only [hledger])
    (fun other => by rw [stepAt_updateStep]; split <;> simp only [hstatus]) rfl rfl

theorem Inserts.updateStep (hst : Inserts s t) {ref : Ref} {change : Step → Step}
    (hledger : ∀ step, (change step).ledger = step.ledger)
    (hstatus : ∀ step, (change step).status = step.status) :
    Inserts s (t.updateStep ref change) :=
  hst.trans (inserts_updateStep hledger hstatus)

theorem inserts_foldl_updateStep {refs : List Ref} {change : Step → Step}
    (hledger : ∀ step, (change step).ledger = step.ledger)
    (hstatus : ∀ step, (change step).status = step.status) :
    Inserts s (refs.foldl (fun current ref => current.updateStep ref change) s) := by
  induction refs generalizing s with
  | nil => exact .refl s
  | cons ref rest ih => exact (inserts_updateStep hledger hstatus).trans ih

theorem Greets.inserts (hgreets : Greets s t) : Inserts s t :=
  inserts_of_same hgreets.saved hgreets.nextRef (fun ref => by rw [hgreets.stepAt])
    (fun ref => by rw [hgreets.stepAt]) hgreets.steps hgreets.statusSteps

theorem Raises.inserts (hraises : Raises s t) : Inserts s t :=
  inserts_of_same hraises.same.saved hraises.same.nextRef
    (fun ref => by rw [hraises.stepAt]; rfl) (fun ref => by rw [hraises.stepAt])
    hraises.same.steps hraises.statusSteps

theorem Describes.inserts (hdescribes : Describes s t) : Inserts s t :=
  inserts_of_same hdescribes.same.saved hdescribes.same.nextRef
    (fun ref => (congrArg Step.ledger (hdescribes.core ref) :))
    (fun ref => (congrArg Step.status (hdescribes.core ref) :))
    hdescribes.same.steps hdescribes.statusSteps

theorem edits_setdefaultStep (s : Scheduler) (step : Step) (hblank : step.Blank) :
    Edits s (s.setdefaultStep step) := by
  cases hget : s.getStep step.id with
  | some ref =>
      have hinsert : s.setdefaultStep step = s.fileStep ref := by
        simp only [setdefaultStep, insertStep, hget]
      rw [hinsert]
      exact edits_of_same rfl rfl (fun _ => rfl) rfl
  | none =>
      have hnext := nextRef_setdefaultStep hget
      refine ⟨(sameSurroundings_setdefaultStep s step).saved, hnext ▸ Nat.le_succ _,
        fun id ref hrow => ?_, fun ref => ?_⟩
      · rw [getStep_setdefaultStep hget] at hrow
        split at hrow
        · obtain rfl := Option.some.inj hrow
          rename_i hid
          refine .inr ⟨le_refl _, hnext ▸ Nat.lt_succ_self _, ?_⟩
          rw [stepAt_setdefaultStep hget, if_pos rfl, hid]
        · exact .inl hrow
      · rw [stepAt_setdefaultStep hget]
        split
        · rename_i hnew
          exact .inr ⟨hnew.symm.le, hblank⟩
        · exact .inl rfl

theorem inserts_setdefaultStep (s : Scheduler) (step : Step) (hblank : step.Blank)
    (hstatus : step.status ≠ .running) : Inserts s (s.setdefaultStep step) :=
  ⟨edits_setdefaultStep s step hblank, fun hkeyed => hkeyed.setdefaultStep hstatus,
    fun _ _ h => h.setdefaultStep step⟩

theorem inserts_updateWorkerAt (s : Scheduler) (worker : WorkerId) (change : Worker → Worker) :
    Inserts s (s.updateWorkerAt worker change) :=
  inserts_of_same rfl rfl (fun _ => rfl) (fun _ => rfl) rfl rfl

theorem inserts_receiveStep (s : Scheduler) (config : Config) (moment : Moment)
    (args : AddStepArgs) : Inserts s (s.receiveStep config moment args) := by
  have hgreets := greets_updateWorker s moment.now args.worker false
  unfold receiveStep
  dsimp only
  split
  · exact hgreets.inserts.trans (inserts_setdefaultStep _ _ rfl Status.noConfusion)
  · exact hgreets.inserts

theorem inserts_describeStep (s : Scheduler) (args : AddStepArgs) (ref : Ref) :
    Inserts s (s.describeStep args ref) := by
  refine Inserts.trans ?_ (describes_describeStep s args ref).inserts
  exact inserts_updateStep (fun _ => rfl) fun _ => rfl

theorem inserts_holdDependency (config : Config) (moment : Moment) (args : AddStepArgs)
    (s : Scheduler) (dep : StepId) : Inserts s (s.holdDependency config moment args dep) := by
  refine (inserts_setdefaultStep s (Step.make config moment.now dep .unknown ∅
    args.priority) rfl Status.noConfusion).trans ?_
  unfold holdDependency
  dsimp only
  split
  · exact .refl _
  · exact inserts_updateStep (fun _ => rfl) fun _ => rfl

theorem inserts_addStakeholders (config : Config) (moment : Moment) (args : AddStepArgs)
    (ref : Ref) (enabled : Bool) (s : Scheduler) :
    Inserts s (s.addStakeholders config moment args ref enabled) := by
  have hfold : ∀ (deps : List StepId) (s : Scheduler),
      Inserts s (deps.foldl (holdDependency config moment args) s) := by
    intro deps
    induction deps with
    | nil => exact fun s => .refl s
    | cons dep rest ih => exact fun s => (inserts_holdDependency ..).trans (ih _)
  unfold addStakeholders
  dsimp only
  split
  · refine Inserts.trans ?_ (hfold _ _)
    exact inserts_updateStep (fun _ => rfl) fun _ => rfl
  · exact .refl s

theorem inserts_registerWorker (config : Config) (moment : Moment) (args : AddStepArgs)
    (ref : Ref) (enabled : Bool) (s : Scheduler) :
    Inserts s (s.registerWorker config moment args ref enabled) := by
  unfold registerWorker
  dsimp only
  split
  · refine Inserts.updateStep (Inserts.trans ?_ (inserts_updateWorkerAt ..)) (fun _ => rfl)
      fun _ => rfl
    refine Inserts.updateStep ?_ (fun _ => rfl) fun _ => rfl
    exact inserts_updateStep (fun _ => rfl) fun _ => rfl
  · exact inserts_updateStep (fun _ => rfl) fun _ => rfl

theorem inserts_reportToBatch (s : Scheduler) (id : StepId) {change : Step → Step}
    (hcore : ∀ step, (change step).core = step.core)
    (hstakeholders : ∀ step, (change step).stakeholders = step.stakeholders) :
    Inserts s (s.reportToBatch id change) :=
  (describes_reportToBatch s id hcore hstakeholders).inserts

theorem inserts_disableWorker (s : Scheduler) (now : Time) (worker : WorkerId) :
    Inserts s (s.disableWorker now worker) := by
  unfold disableWorker
  refine Inserts.trans ?_ (inserts_updateWorkerAt ..)
  refine Inserts.trans ?_ (greets_ensureWorker ..).inserts
  exact inserts_foldl_updateStep (fun _ => rfl) fun _ => rfl

/-! ## The handlers -/

/-- The contract allows every exception, and edits that leave the index in order. -/
structure Lenient (contract : Contract Raised Scheduler) : Prop where
  allows : ∀ error, contract.allows error
  inserts : ∀ {s t}, contract.inv s → Inserts s t → contract.inv t ∧ contract.rel s t

/-- The contract says nothing about the index. -/
structure Careless (contract : Contract Raised Scheduler) : Prop where
  allows : ∀ error, contract.allows error
  edits : ∀ {s t}, contract.inv s → Edits s t → contract.inv t ∧ contract.rel s t

variable {contract : Contract Raised Scheduler}

theorem Careless.lenient (hcareless : Careless contract) : Lenient contract :=
  ⟨hcareless.allows, fun hinv hinserts => hcareless.edits hinv hinserts.toEdits⟩

section Rules

variable {α : Type} (hlenient : Lenient contract)
include hlenient

theorem honours_change {update : Scheduler → Scheduler} (hinserts : ∀ s, Inserts s (update s)) :
    Honours contract (modify update) := fun s hinv =>
  .modify (hlenient.inserts hinv (hinserts s)).1 (hlenient.inserts hinv (hinserts s)).2

theorem honours_updateStep {ref : Ref} {change : Step → Step}
    (hledger : ∀ step, (change step).ledger = step.ledger)
    (hstatus : ∀ step, (change step).status = step.status) :
    Honours contract (modify fun s => s.updateStep ref change) :=
  honours_change hlenient fun _ => inserts_updateStep hledger hstatus

theorem honours_throw (error : Raised) : Honours contract (throw error : SchedulerM α) :=
  fun _ hinv => .throw hinv (hlenient.allows error)

omit hlenient in
theorem honours_get_bind {next : Scheduler → SchedulerM α}
    (hnext : ∀ s, Honours contract (next s)) : Honours contract (get >>= next) :=
  fun s hinv => .get_bind (hnext s s hinv)

omit hlenient in
theorem honours_ite {condition : Prop} [Decidable condition] {yes no : SchedulerM α}
    (hyes : Honours contract yes) (hno : Honours contract no) :
    Honours contract (if condition then yes else no) := by
  split
  · exact hyes
  · exact hno

omit hlenient in
theorem honours_pure (value : α) : Honours contract (pure value : SchedulerM α) :=
  Honours.pure value

end Rules

section SetStatus

variable {recur : Ref → Status → Option Config → SchedulerM Unit} {config : Option Config}
  {now : Time} (hlenient : Lenient contract)
include hlenient

theorem releaseBatch_honours
    (hrecur : ∀ ref newStatus, Honours contract (recur ref newStatus config)) (ref : Ref)
    (newStatus : Status) : Honours contract (releaseBatch recur ref newStatus config) := by
  refine honours_get_bind fun s => ?_
  dsimp only
  split
  · refine Honours.bind (Honours.forM fun member _ => ?_) fun _ =>
      honours_updateStep hlenient (fun _ => rfl) fun _ => rfl
    exact (hrecur member newStatus).bind fun _ =>
      honours_updateStep hlenient (fun _ => rfl) fun _ => rfl
  · exact honours_pure _

omit hlenient in
theorem moveStatus_honours (hcareless : Careless contract) (ref : Ref) (newStatus : Status) :
    Honours contract (moveStatus now ref newStatus) := by
  refine honours_get_bind fun s => ?_
  refine honours_ite (honours_pure _) (honours_ite ?_ (honours_throw hcareless.lenient _))
  intro t hinv
  have hedits : Edits t (t.refile now ref newStatus) :=
    edits_of_same rfl rfl (fun other => by rw [stepAt_refile]; split <;> rfl) rfl
  exact .modify (hcareless.edits hinv hedits).1 (hcareless.edits hinv hedits).2

theorem stampFailure_honours (ref : Ref) (newStatus : Status) (combined : Bool) :
    Honours contract (stampFailure now ref newStatus combined config) := by
  unfold stampFailure
  split
  · refine honours_updateStep hlenient (fun step => ?_) fun _ => Step.stampFailure_status ..
    unfold Step.stampFailure
    dsimp only
    split <;> rfl
  · exact honours_throw hlenient _
  · exact honours_pure _

omit hlenient in
/-- What the move between the buckets and the release of the batch keep, `set_status` keeps past its
early returns. -/
theorem applyStatus_honours {ref : Ref} {newStatus : Status}
    (hwrites : ∀ {change : Step → Step},
      (∀ step, (change step).id = step.id ∧ (change step).status = step.status) →
      Honours contract (modify fun s => s.updateStep ref change))
    (hrelease : Honours contract (releaseBatch recur ref newStatus config))
    (hmove : ∀ status, (status = .running ↔ newStatus = .running) →
      Honours contract (moveStatus now ref status))
    (hraises : newStatus = .failed → config = none → ∀ error, contract.allows error) :
    Honours contract (applyStatus recur now ref newStatus config) := by
  unfold applyStatus
  refine honours_get_bind fun s => ?_
  refine Honours.bind (hwrites fun _ => ⟨Step.revive_id .., Step.revive_status ..⟩) fun _ => ?_
  refine hrelease.bind fun _ => ?_
  refine honours_get_bind fun _ => honours_get_bind fun t => ?_
  refine Honours.bind (hwrites fun _ => ⟨Step.account_id .., Step.account_status ..⟩) fun _ => ?_
  refine (hmove _ ((t.stepAt ref).account_running now newStatus)).bind fun _ => ?_
  refine Honours.bind ?_ fun _ => hwrites fun _ => ⟨Step.markEnd_id .., Step.markEnd_status ..⟩
  unfold stampFailure
  split
  · exact hwrites fun _ => ⟨Step.stampFailure_id .., Step.stampFailure_status ..⟩
  · rename_i hfinal
    exact fun _ hinv => .throw hinv (hraises (Step.account_failed _ _ _ hfinal) rfl _)
  · exact honours_pure _

/-- What `set_status` past its early returns keeps, `set_status` keeps. -/
theorem setStatus_honours
    (happly : ∀ {recur : Ref → Status → Option Config → SchedulerM Unit},
      (∀ ref newStatus, Honours contract (recur ref newStatus config)) → ∀ ref newStatus,
      Honours contract (applyStatus recur now ref newStatus config))
    (ref : Ref) (newStatus : Status) : Honours contract (setStatus now ref newStatus config) := by
  have hdepth : ∀ depth ref newStatus,
      Honours contract (setStatusUpTo depth now ref newStatus config) := by
    intro depth
    induction depth with
    | zero => exact fun _ _ => honours_throw hlenient _
    | succ depth ih =>
        intro ref newStatus
        unfold setStatusUpTo setStatusBody
        refine honours_get_bind fun s => ?_
        exact honours_ite (honours_throw hlenient _)
          (honours_ite (honours_pure _) (happly ih ref newStatus))
  exact hdepth 2 ref newStatus

end SetStatus

theorem inactivateSteps_honours (hcareless : Careless contract) (ids : List StepId) :
    Honours contract (inactivateSteps ids) := by
  have hchange : ∀ {update : Scheduler → Scheduler}, (∀ s, Edits s (update s)) →
      Honours contract (modify update) := fun hedits s hinv =>
    .modify (hcareless.edits hinv (hedits s)).1 (hcareless.edits hinv (hedits s)).2
  refine Honours.forM fun id _ => ?_
  unfold inactivateStep
  refine honours_get_bind fun s => ?_
  split
  · exact honours_throw hcareless.lenient _
  · refine Honours.bind (hchange fun s => ?_) fun _ => honours_ite
      (hchange fun s => edits_of_same rfl rfl (fun _ => rfl) rfl)
      (honours_throw hcareless.lenient _)
    refine ⟨rfl, le_refl _, fun other ref hget => ?_, fun _ => .inl rfl⟩
    have hrow : (s.steps.erase id).get? other = some ref := hget
    rw [Dict.get?_erase] at hrow
    split at hrow
    · cases hrow
    · exact .inl hrow

/-- The contract allows edits, the changes of a status and the removal of rows. -/
structure Admits (contract : Contract Raised Scheduler) (config : Config) (now : Time) : Prop
    extends Lenient contract where
  setStatus : ∀ {given : Option Config}, given = none ∨ given = some config → ∀ ref newStatus,
    Honours contract (Trun.setStatus now ref newStatus given)
  forgives : ∀ ref, Honours contract (modify fun s => s.updateStep ref Step.reEnable)
  forgets : ∀ ref, Honours contract (modify fun s => s.updateStep ref Step.clearFailures)
  removes : ∀ ids, Honours contract (inactivateSteps ids)

section Handlers

variable {config : Config} {now : Time} {moment : Moment}

section Adding

variable (hlenient : Lenient contract)
include hlenient

theorem claimRun_honours (args : AddStepArgs) (ref : Ref) :
    Honours contract (claimRun moment args ref) := by
  unfold claimRun
  refine honours_get_bind fun s => honours_ite ?_ (honours_pure _)
  refine Honours.bind (honours_updateStep hlenient (fun _ => rfl) fun _ => rfl) fun _ =>
    Honours.bind ?_ fun _ => honours_updateStep hlenient (fun _ => rfl) fun _ => rfl
  unfold joinRunning
  split
  · exact honours_pure _
  · refine honours_ite (honours_pure _) (honours_get_bind fun t => ?_)
    split
    · exact honours_throw hlenient _
    · split
      · exact honours_throw hlenient _
      · exact honours_updateStep hlenient (fun _ => rfl) fun _ => rfl

theorem acceptStep_honours {args : AddStepArgs} {ref : Ref}
    (hset : Honours contract (setStatus moment.now ref args.newStatus (some config)))
    (enabled : Bool) : Honours contract (acceptStep config moment args ref enabled) := by
  unfold acceptStep
  refine Honours.bind (honours_updateStep hlenient (fun _ => rfl) fun _ => rfl) fun _ => ?_
  refine (claimRun_honours hlenient args ref).bind fun _ => ?_
  refine (honours_change hlenient fun s => inserts_describeStep s args ref).bind fun _ => ?_
  refine Honours.bind ?_ fun _ => ?_
  · unfold reportStatus
    exact honours_get_bind fun s => honours_ite hset (honours_pure _)
  · refine Honours.bind (honours_updateStep hlenient (fun _ => rfl) fun _ => rfl) fun _ => ?_
    refine (honours_change hlenient
      fun s => inserts_addStakeholders config moment args ref enabled s).bind fun _ => ?_
    refine Honours.bind (fun s hinv => ?_) fun _ =>
      honours_change hlenient fun s => inserts_registerWorker config moment args ref enabled s
    obtain ⟨t, hrun, hraises, -⟩ := updatePriority_spec s args.priority ref
    obtain ⟨hinv', hrel⟩ := hlenient.inserts hinv hraises.inserts
    exact .of_exec hrun hinv' hrel fun error _ => hlenient.allows error

omit hlenient in
theorem addStep_honours (hadmits : Admits contract config moment.now) (args : AddStepArgs) :
    Honours contract (addStep config moment args) := by
  unfold addStep
  refine (honours_change hadmits.toLenient
    fun s => inserts_receiveStep s config moment args).bind fun _ => ?_
  refine honours_get_bind fun s => ?_
  dsimp only
  split
  · exact honours_pure _
  · exact honours_ite (honours_pure _)
      (acceptStep_honours hadmits.toLenient (hadmits.setStatus (.inr rfl) _ _) _)

end Adding

section Pruning

section Visiting

variable (hlenient : Lenient contract)
  (hforgives : ∀ ref, Honours contract (modify fun s => s.updateStep ref Step.reEnable))
  (hforgets : ∀ ref, Honours contract (modify fun s => s.updateStep ref Step.clearFailures))
include hforgives hforgets

theorem reEnable_honours {ref : Ref}
    (hset : Honours contract (setStatus now ref .failed (some config))) :
    Honours contract (reEnable config now ref) := by
  unfold reEnable
  exact (hforgives ref).bind fun _ => hset.bind fun _ => hforgets ref

include hlenient

theorem visitSteps_honours (assistants : List WorkerId) {refs : List Ref}
    (hset : ∀ ref ∈ refs, ∀ newStatus, newStatus ≠ .running →
      Honours contract (setStatus now ref newStatus (some config))) :
    Honours contract (visitSteps config now assistants refs) := by
  induction refs with
  | nil => exact honours_pure _
  | cons ref rest ih =>
      have hrest := ih fun other hother => hset other (List.mem_cons_of_mem _ hother)
      have hfirst := hset ref (List.mem_cons_self ..)
      unfold visitSteps
      refine Honours.bind ?_ fun _ => Honours.bind ?_ fun _ =>
        honours_get_bind fun s => hrest.bind fun _ => honours_pure _
      · unfold failDeadWorkerStep
        refine honours_get_bind fun s => honours_ite ?_ (honours_pure _)
        exact Honours.bind (honours_updateStep hlenient (fun _ => rfl) fun _ => rfl) fun _ =>
          (hfirst _ Status.noConfusion).bind fun _ =>
            honours_updateStep hlenient (fun _ => rfl) fun _ => rfl
      · unfold updateStatus
        refine Honours.bind (honours_updateStep hlenient (fun step => ?_) fun step => ?_)
          fun _ => Honours.bind ?_ fun _ => ?_
        · unfold Step.stampUnneeded
          split <;> rfl
        · unfold Step.stampUnneeded
          split <;> rfl
        · unfold reEnableExpired
          refine honours_get_bind fun s => ?_
          split
          · exact honours_ite
              (reEnable_honours hforgives hforgets (hfirst _ Status.noConfusion)) (honours_pure _)
          · exact honours_pure _
        · unfold retryFailed
          refine honours_get_bind fun s => honours_ite ?_ (honours_pure _)
          split
          · exact honours_throw hlenient _
          · exact honours_ite (hfirst _ Status.noConfusion) (honours_pure _)

end Visiting

theorem inserts_pruneWorkers (s : Scheduler) (config : Config) (now : Time) :
    Inserts s (s.pruneWorkers config now) := by
  have hset : Inserts s { s with activeWorkers := ((s.activeWorkers.values.filter fun worker =>
      worker.prune config now).map Worker.id).foldl Dict.erase s.activeWorkers } :=
    inserts_of_same rfl rfl (fun _ => rfl) (fun _ => rfl) rfl rfl
  exact hset.trans (inserts_foldl_updateStep (fun _ => rfl) fun _ => rfl)

theorem prune_honours (hadmits : Admits contract config now) :
    Honours contract (prune config now) := by
  unfold prune pruneSteps
  refine (honours_change hadmits.toLenient fun s => inserts_pruneWorkers s config now).bind
    fun _ => honours_get_bind fun s => ?_
  refine Honours.bind ?_ fun removed => hadmits.removes removed
  exact visitSteps_honours hadmits.toLenient hadmits.forgives hadmits.forgets s.assistants
    fun ref _ newStatus _ => hadmits.setStatus (.inr rfl) ref newStatus

end Pruning

/-! ## Handing out -/

theorem countPending_lenient (hlenient : Lenient contract) (moment : Moment)
    (worker : WorkerId) : Honours contract (countPending moment worker) := fun s hinv => by
  obtain ⟨-, hgreets, -⟩ := countPending_meets moment worker s
  obtain ⟨hinv', hrel⟩ := hlenient.inserts hinv hgreets.inserts
  exact ⟨hinv', hrel, fun error _ => hlenient.allows error⟩

theorem handOutBatch_honours {env : Env} (hlenient : Lenient contract) (worker : WorkerId)
    {selection : Selection} (best : Ref) (pending : PendingReply)
    (hset : ∀ ref ∈ selection.batchedSteps,
      Honours contract (setStatus now ref .batchRunning none)) :
    Honours contract (handOutBatch env now worker selection best pending) := by
  unfold handOutBatch
  refine honours_get_bind fun s => Honours.bind (Honours.forM fun ref href => ?_) fun _ =>
    honours_get_bind fun t => honours_pure _
  unfold setBatchRunning
  exact (hset ref href).bind fun _ => honours_updateStep hlenient (fun _ => rfl) fun _ => rfl

theorem handOutStep_honours {env : Env} (hlenient : Lenient contract) (worker : WorkerId)
    {best : Ref} (pending : PendingReply)
    (hset : Honours contract (setStatus now best .running (some env.config))) :
    Honours contract (handOutStep env now worker best pending) := by
  unfold handOutStep
  refine hset.bind fun _ => ?_
  exact Honours.bind (honours_updateStep hlenient (fun _ => rfl) fun _ => rfl) fun _ =>
    honours_get_bind fun s => honours_pure _

theorem handOut_honours {env : Env} (hadmits : Admits contract env.config now)
    (worker : WorkerId) (selection : Selection) (pending : PendingReply) :
    Honours contract (handOut env now worker selection pending) := by
  unfold handOut
  split
  · exact honours_pure _
  · exact honours_ite
      (handOutBatch_honours hadmits.toLenient worker _ pending
        fun ref _ => hadmits.setStatus (.inl rfl) ref _)
      (handOutStep_honours hadmits.toLenient worker pending (hadmits.setStatus (.inr rfl) _ _))

section Working

variable {env : Env} (hadmits : Admits contract env.config moment.now)
include hadmits

theorem receiveRequest_honours (args : GetWorkArgs) :
    Honours contract (receiveRequest env moment args) := by
  have hgreets : Honours contract
      (modify fun s => s.updateWorker moment.now args.worker true) :=
    honours_change hadmits.toLenient fun s => (greets_updateWorker ..).inserts
  unfold receiveRequest
  dsimp only
  exact honours_ite (Honours.bind (prune_honours hadmits) fun _ => hgreets) hgreets

omit hadmits in
theorem prepareWork_honours (hadmits : Admits contract config now) (args : GetWorkArgs) :
    Honours contract (prepareWork now args) := by
  unfold prepareWork
  dsimp only
  refine Honours.bind (honours_change hadmits.toLenient fun s => ?_) fun _ =>
    honours_get_bind fun t => ?_
  · split
    · exact inserts_updateWorkerAt ..
    · exact .refl s
  · split
    · exact honours_pure _
    · refine Honours.bind ?_ fun _ => honours_pure _
      unfold resetOrphanedBatchRunningSteps
      exact honours_get_bind fun u => Honours.forM fun ref _ => hadmits.setStatus (.inl rfl) _ _

theorem getWork_honours (args : GetWorkArgs) :
    Honours contract (getWork env moment args) := by
  unfold getWork
  refine Honours.bind (receiveRequest_honours hadmits args) fun _ =>
    honours_get_bind fun s => ?_
  refine honours_ite ?_ (honours_pure _)
  unfold findWork
  refine Honours.bind (prepareWork_honours hadmits args) fun lost => honours_get_bind fun t => ?_
  refine Honours.bind (countPending_lenient hadmits.toLenient moment args.worker)
    fun pending => ?_
  exact handOut_honours hadmits args.worker _ pending

end Working

/-! ## All requests -/

theorem decreaseStep_lenient (hlenient : Lenient contract) (amounts : Resources) (ref : Ref) :
    Honours contract (decreaseStep amounts ref) := by
  unfold decreaseStep
  refine honours_get_bind fun s => ?_
  split
  · exact honours_throw hlenient _
  · exact honours_updateStep hlenient (fun _ => rfl) fun _ => rfl

theorem decreaseRunningStepResources_lenient (hlenient : Lenient contract) (id : StepId)
    (amounts : Resources) :
    Honours contract (decreaseRunningStepResources id amounts) := by
  unfold decreaseRunningStepResources
  refine honours_get_bind fun s => ?_
  split
  · exact honours_pure _
  · refine honours_ite (Honours.bind (decreaseStep_lenient hlenient amounts _) fun _ => ?_)
      (honours_pure _)
    split
    · exact honours_pure _
    · exact Honours.forM fun ref _ => decreaseStep_lenient hlenient amounts ref

/-- A handler that looks a step up and may change its status. -/
theorem lookup_honours (id : StepId) (allowed : Scheduler → Ref → Prop)
    [∀ s ref, Decidable (allowed s ref)] {act : Ref → SchedulerM Unit}
    (hact : ∀ ref, Honours contract (act ref)) :
    Honours contract (do
      let s ← get
      match s.getStep id with
      | none => pure ()
      | some ref => if allowed s ref then act ref else pure ()) := by
  refine honours_get_bind fun s => ?_
  split
  · exact honours_pure _
  · exact honours_ite (hact _) (honours_pure _)

theorem honours_reply {α : Type} {program : SchedulerM α} {reply : α → Response}
    (hhonours : Honours contract program) :
    Honours contract (do let value ← program; pure (reply value)) :=
  Honours.bind hhonours fun _ => honours_pure _

/-- What the handlers that change a status or remove rows keep, every request keeps but those of the
state file. -/
theorem serve_keeps {env : Env} (hlenient : Lenient contract)
    (hadd : ∀ args, Honours contract (addStep env.config moment args))
    (hwork : ∀ args, Honours contract (getWork env moment args))
    (hprune : Honours contract (prune env.config moment.now))
    (hdone : ∀ id, Honours contract (markAsDone env.config moment.now id))
    (hforgive : ∀ id, Honours contract (forgiveFailures env.config moment.now id))
    (henable : ∀ id, Honours contract (reEnableStep env.config moment.now id))
    {request : Request} (hfile : request ≠ .load ∧ request ≠ .dump) :
    Honours contract (serve env moment request) := by
  have hchange : ∀ {update : Scheduler → Scheduler}, (∀ s, Inserts s (update s)) →
      Honours contract (change update) := fun hinserts =>
    Honours.bind (honours_change hlenient hinserts) fun _ => honours_pure _
  cases request with
  | addStep args => exact honours_reply (hadd args)
  | getWork args => exact honours_reply (hwork args)
  | countPending worker => exact honours_reply (countPending_lenient hlenient moment worker)
  | prune => exact honours_reply hprune
  | ping worker => exact hchange fun s => (greets_updateWorker ..).inserts
  | addWorker worker info => exact hchange fun s => (greets_addWorker ..).inserts
  | markAsDone id => exact honours_reply (hdone id)
  | forgiveFailures id => exact honours_reply (hforgive id)
  | reEnableStep id => exact honours_reply (henable id)
  | disableWorker worker => exact hchange fun s => inserts_disableWorker s moment.now worker
  | decreaseRunningStepResources id amounts =>
      exact honours_reply (decreaseRunningStepResources_lenient hlenient id amounts)
  | setStepStatusMessage id message =>
      exact hchange fun s => inserts_reportToBatch s id (fun _ => rfl) fun _ => rfl
  | setStepProgressPercentage id percentage =>
      exact hchange fun s => inserts_reportToBatch s id (fun _ => rfl) fun _ => rfl
  | updateResource resource amount =>
      refine hchange fun s => ?_
      unfold updateResource
      split
      · exact .refl s
      · exact inserts_of_same rfl rfl (fun _ => rfl) (fun _ => rfl) rfl rfl
  | addStepBatcher | updateResources | pause | unpause =>
      exact hchange fun s => inserts_of_same rfl rfl (fun _ => rfl) (fun _ => rfl) rfl rfl
  | dump => exact absurd rfl hfile.2
  | load => exact absurd rfl hfile.1

/-- Every request but those of the state file keeps the contract. -/
theorem serve_honours {env : Env} (hadmits : Admits contract env.config moment.now)
    {request : Request} (hfile : request ≠ .load ∧ request ≠ .dump) :
    Honours contract (serve env moment request) := by
  have hset := fun ref newStatus => hadmits.setStatus (.inr rfl) ref newStatus
  exact serve_keeps hadmits.toLenient (addStep_honours hadmits) (getWork_honours hadmits)
    (prune_honours hadmits) (fun id => lookup_honours id _ fun ref => hset ref _)
    (fun id => lookup_honours id _ fun ref => hset ref _)
    (fun id => lookup_honours id _ fun ref =>
      reEnable_honours hadmits.forgives hadmits.forgets (hset ref .failed)) hfile

end Handlers

/-! ## Growth -/

/-- What every handler but `load` promises, whether it raises or not. -/
def growth : Contract Raised Scheduler where
  inv _ := True
  rel := Grows
  allows _ := True
  refl := .refl
  trans := .trans

theorem growth_careless : Careless growth :=
  ⟨fun _ => trivial, fun _ hedits => ⟨trivial, hedits.grows⟩⟩

/-- A write that leaves the id alone lets the tables grow, whatever it does to the failures. -/
theorem growth_updateStep {ref : Ref} {change : Step → Step}
    (hid : ∀ step, (change step).id = step.id) :
    Honours growth (modify fun s => s.updateStep ref change) := fun s _ =>
  .modify trivial ⟨rfl, le_refl _,
    fun other _ => by rw [stepAt_updateStep]; split <;> simp only [hid], fun _ _ h => .inl h⟩

theorem growth_admits (config : Config) (now : Time) : Admits growth config now where
  toLenient := growth_careless.lenient
  setStatus := fun _ => setStatus_honours growth_careless.lenient fun hrecur ref newStatus =>
    applyStatus_honours (fun hplace => growth_updateStep fun step => (hplace step).1)
      (releaseBatch_honours growth_careless.lenient hrecur ref newStatus)
      (fun status _ => moveStatus_honours growth_careless ref status) fun _ _ _ => trivial
  forgives := fun _ => growth_updateStep fun _ => rfl
  forgets := fun _ => growth_updateStep fun _ => rfl
  removes := inactivateSteps_honours growth_careless

theorem countPending_grows (moment : Moment) (worker : WorkerId) :
    Honours growth (countPending moment worker) :=
  countPending_lenient growth_careless.lenient moment worker

theorem handOut_grows (env : Env) (now : Time) (worker : WorkerId) (selection : Selection)
    (pending : PendingReply) : Honours growth (handOut env now worker selection pending) :=
  handOut_honours (growth_admits env.config now) worker selection pending

/-- Every request but `load` lets the tables grow. -/
theorem serve_grows (env : Env) (moment : Moment) {request : Request}
    (hfile : request ≠ .load ∧ request ≠ .dump) :
    Honours growth (serve env moment request) :=
  serve_honours (growth_admits env.config moment.now) hfile

/-! ## The state file -/

/-- `dump` and `load` copy the objects and the rows, so what reads only these lasts if the
other requests keep it. -/
theorem lasting_after_others {env : Env} {event : Event} {invariant later : Scheduler → Prop}
    (hcontents : ∀ {u v : Scheduler}, invariant u → v.heap = u.heap → v.nextRef = u.nextRef →
      v.steps = u.steps → later v)
    (hothers : event.request ≠ .load ∧ event.request ≠ .dump →
      later (env.after s event) ∧ (env.after s event).saved = s.saved)
    (hlasting : Lasting invariant s) : Lasting later (env.after s event) := by
  have hself : ∀ {u : Scheduler}, invariant u → later u := fun hu => hcontents hu rfl rfl rfl
  have hfile : ∀ saved, s.saved = some saved → ∃ u, later u ∧ saved = u.getState :=
    fun saved h => by
      obtain ⟨u, hu, hsaved⟩ := hlasting.2 saved h
      exact ⟨u, hself hu, hsaved⟩
  obtain ⟨moment, request⟩ := event
  by_cases hrequest : request ≠ .load ∧ request ≠ .dump
  · obtain ⟨hlater, hsaved⟩ := hothers hrequest
    exact ⟨hlater, fun saved h => hfile saved (hsaved ▸ h)⟩
  · rw [not_and_or, not_ne_iff, not_ne_iff] at hrequest
    rcases hrequest with rfl | rfl
    · have hload : Lasting later s.load := by
        cases hsaved : s.saved with
        | none =>
            have hload : s.load = s := by simp only [load, hsaved]
            rw [hload]
            exact ⟨hself hlasting.1, hfile⟩
        | some saved =>
            obtain ⟨u, hu, rfl⟩ := hlasting.2 saved hsaved
            obtain ⟨hheap, hnext, hsteps, -, hsame⟩ := load_eq hsaved
            exact ⟨hcontents hu hheap hnext hsteps, fun saved h => hfile saved (hsame ▸ h)⟩
      exact hload
    · have hdump : Lasting later s.dump := ⟨hcontents hlasting.1 rfl rfl rfl,
        fun saved h => ⟨s, hself hlasting.1, (Option.some.inj h).symm⟩⟩
      exact hdump

theorem rows_after (env : Env) (event : Event) (hlasting : Lasting Rows s) :
    Lasting Rows (env.after s event) := by
  refine lasting_after_others (fun {u v} hrows hheap hnext hsteps id ref hget => ?_)
    (fun hfile => ?_) hlasting
  · simp only [getStep, hsteps] at hget
    simp only [stepAt, hheap, hnext]
    exact hrows id ref hget
  · obtain ⟨-, hgrows, -⟩ := serve_grows env event.moment hfile s trivial
    exact ⟨hgrows.rows hlasting.1, hgrows.saved⟩

/-- Every state that any requests lead to has proper rows. -/
theorem run_rows (env : Env) (resources : Resources) (events : List Event) :
    (env.run (.initial resources) events).Rows := by
  have hinitial : Lasting Rows (Scheduler.initial resources) :=
    ⟨fun _ _ h => (by cases h), fun _ h => (by cases h)⟩
  refine (runAll_invariant env.after (fun _ _ => True) (Lasting Rows)
    (fun _ event hlasting _ => rows_after env event hlasting) hinitial ?_).1
  exact along_of_forall (fun _ _ => trivial) events

end Scheduler

end Trun
