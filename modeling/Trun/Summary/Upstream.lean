import Trun.Program.Exploring
import Trun.Program.Fuel
import Trun.Summary.Counting

/-!
# Why steps are still pending

`_populate_unknown_statuses` searches the requirements of the pending steps
and notes four kinds of causes.  A cause that lies further upstream is read
from what the search has noted about a requirement.  For scheduling errors
only the requirements themselves are looked at.
-/

namespace Trun

variable {α : Type} [DecidableEq α]

/-! ## The search -/

/-- The flags of `_depth_first_search`. -/
structure UpstreamFlags where
  upstreamFailure : Bool := false
  upstreamMissingDependency : Bool := false
  upstreamRunByOtherWorker : Bool := false
  upstreamSchedulingError : Bool := false
  deriving DecidableEq

/-- `set_steps` and `visited`. -/
structure Search (α : Type) where
  sets : SetSteps α
  visited : Finset α := ∅

/-- What `_depth_first_search` notes about the current step for one requirement. -/
def noteCauses (currentStep step : α) (noted : SetSteps α × UpstreamFlags) :
    SetSteps α × UpstreamFlags :=
  let (sets, flags) := noted
  let (sets, flags) :=
    if step ∈ sets.everFailed ∨ step ∈ sets.upstreamFailure then
      ({ sets with upstreamFailure := insert currentStep sets.upstreamFailure },
        { flags with upstreamFailure := true })
    else (sets, flags)
  let (sets, flags) :=
    if step ∈ sets.stillPendingExt ∨ step ∈ sets.upstreamMissingDependency then
      ({ sets with
          upstreamMissingDependency := insert currentStep sets.upstreamMissingDependency },
        { flags with upstreamMissingDependency := true })
    else (sets, flags)
  let (sets, flags) :=
    if step ∈ sets.runByOtherWorker ∨ step ∈ sets.upstreamRunByOtherWorker then
      ({ sets with
          upstreamRunByOtherWorker := insert currentStep sets.upstreamRunByOtherWorker },
        { flags with upstreamRunByOtherWorker := true })
    else (sets, flags)
  if step ∈ sets.schedulingError then
    ({ sets with upstreamSchedulingError := insert currentStep sets.upstreamSchedulingError },
      { flags with upstreamSchedulingError := true })
  else (sets, flags)

def noteNotRun (currentStep : α) (sets : SetSteps α) (flags : UpstreamFlags) : SetSteps α :=
  if flags = {} ∧ currentStep ∉ sets.runByOtherWorker then
    { sets with notRun := insert currentStep sets.notRun }
  else sets

/-- The body of the loop over `current_step._requires()`. -/
def meetStep (search : α → Search α → Option (Search α)) (currentStep : α)
    (met : Search α × UpstreamFlags) (step : α) : Option (Search α × UpstreamFlags) :=
  (if step ∈ met.1.visited then some met.1 else search step met.1).bind fun found =>
    let noted := noteCauses currentStep step (found.sets, met.2)
    some ({ found with sets := noted.1 }, noted.2)

/-- `_depth_first_search`, with so much depth. -/
def depthFirstSearch (requires : α → List α) : ℕ → α → Search α → Option (Search α)
  | 0, _, _ => none
  | fuel + 1, currentStep, search =>
    let search := { search with visited := insert currentStep search.visited }
    if currentStep ∈ search.sets.stillPendingNotExt then
      ((requires currentStep).foldlM (meetStep (depthFirstSearch requires fuel) currentStep)
        (search, {})).bind fun met =>
          some { met.1 with sets := noteNotRun currentStep met.1.sets met.2 }
    else some search

/-- `_populate_unknown_statuses`, where the set is iterated in this order. -/
def populateUnknownStatuses (requires : α → List α) (fuel : ℕ) (sets : SetSteps α)
    (order : List α) : Option (SetSteps α) :=
  (order.foldlM (fun search step => depthFirstSearch requires fuel step search) { sets }).map
    Search.sets

/-- `_summary_dict`, with what `_get_run_by_other_worker` returns. -/
def summaryDict (requires : α → List α) (fuel : ℕ) (stepHistory : List (Note α))
    (runByOtherWorker : Finset α) (order : List α) : Option (SetSteps α) :=
  populateUnknownStatuses requires fuel { partitionSteps stepHistory with runByOtherWorker } order

/-! ## Causes -/

inductive Cause where
  | failure
  | missingDependency
  | runByOtherWorker
  | schedulingError
  deriving DecidableEq

namespace SetSteps

/-- The steps that are a cause themselves. -/
def source (sets : SetSteps α) : Cause → Finset α
  | .failure => sets.everFailed
  | .missingDependency => sets.stillPendingExt
  | .runByOtherWorker => sets.runByOtherWorker
  | .schedulingError => sets.schedulingError

def upstream (sets : SetSteps α) : Cause → Finset α
  | .failure => sets.upstreamFailure
  | .missingDependency => sets.upstreamMissingDependency
  | .runByOtherWorker => sets.upstreamRunByOtherWorker
  | .schedulingError => sets.upstreamSchedulingError

/-- The sets before the search. -/
def withoutCauses (sets : SetSteps α) : SetSteps α :=
  { sets with
    upstreamFailure := ∅, upstreamMissingDependency := ∅, upstreamRunByOtherWorker := ∅
    upstreamSchedulingError := ∅, notRun := ∅ }

end SetSteps

def UpstreamFlags.of (flags : UpstreamFlags) : Cause → Bool
  | .failure => flags.upstreamFailure
  | .missingDependency => flags.upstreamMissingDependency
  | .runByOtherWorker => flags.upstreamRunByOtherWorker
  | .schedulingError => flags.upstreamSchedulingError

/-- The search reads its own notes about this cause. -/
def Cause.spreads : Cause → Bool
  | .schedulingError => false
  | _ => true

/-- The requirement is a cause, or the search has noted one upstream of it. -/
def SetSteps.Blames (sets : SetSteps α) (cause : Cause) (step : α) : Prop :=
  step ∈ sets.source cause ∨ cause.spreads = true ∧ step ∈ sets.upstream cause

section Notes

variable {currentStep step other : α} {sets : SetSteps α} {flags : UpstreamFlags} {cause : Cause}

theorem flags_eq_iff : flags = {} ↔ ∀ cause, flags.of cause = false := by
  constructor
  · rintro rfl cause
    cases cause <;> rfl
  · intro h
    obtain ⟨failure, missingDependency, runByOtherWorker, schedulingError⟩ := flags
    rw [UpstreamFlags.mk.injEq]
    exact ⟨h .failure, h .missingDependency, h .runByOtherWorker, h .schedulingError⟩

/-- Each of the four tests changes its own set and flag. -/
theorem noteCauses_eq : noteCauses currentStep step (sets, flags) =
    ({ sets with
        upstreamFailure :=
          if step ∈ sets.everFailed ∨ step ∈ sets.upstreamFailure then
            insert currentStep sets.upstreamFailure else sets.upstreamFailure
        upstreamMissingDependency :=
          if step ∈ sets.stillPendingExt ∨ step ∈ sets.upstreamMissingDependency then
            insert currentStep sets.upstreamMissingDependency else sets.upstreamMissingDependency
        upstreamRunByOtherWorker :=
          if step ∈ sets.runByOtherWorker ∨ step ∈ sets.upstreamRunByOtherWorker then
            insert currentStep sets.upstreamRunByOtherWorker else sets.upstreamRunByOtherWorker
        upstreamSchedulingError :=
          if step ∈ sets.schedulingError then
            insert currentStep sets.upstreamSchedulingError else sets.upstreamSchedulingError },
      { upstreamFailure := flags.upstreamFailure ||
          decide (step ∈ sets.everFailed ∨ step ∈ sets.upstreamFailure)
        upstreamMissingDependency := flags.upstreamMissingDependency ||
          decide (step ∈ sets.stillPendingExt ∨ step ∈ sets.upstreamMissingDependency)
        upstreamRunByOtherWorker := flags.upstreamRunByOtherWorker ||
          decide (step ∈ sets.runByOtherWorker ∨ step ∈ sets.upstreamRunByOtherWorker)
        upstreamSchedulingError := flags.upstreamSchedulingError ||
          decide (step ∈ sets.schedulingError) }) := by
  by_cases hfailure : step ∈ sets.everFailed ∨ step ∈ sets.upstreamFailure <;>
  by_cases hmissing : step ∈ sets.stillPendingExt ∨ step ∈ sets.upstreamMissingDependency <;>
  by_cases hother : step ∈ sets.runByOtherWorker ∨ step ∈ sets.upstreamRunByOtherWorker <;>
  by_cases herror : step ∈ sets.schedulingError <;>
  simp only [noteCauses, hfailure, hmissing, hother, herror, if_true, if_false, decide_true,
    decide_false, Bool.or_true, Bool.or_false]

omit [DecidableEq α] in
theorem blames_iff : sets.Blames cause step ↔ match cause with
    | .failure => step ∈ sets.everFailed ∨ step ∈ sets.upstreamFailure
    | .missingDependency => step ∈ sets.stillPendingExt ∨ step ∈ sets.upstreamMissingDependency
    | .runByOtherWorker => step ∈ sets.runByOtherWorker ∨ step ∈ sets.upstreamRunByOtherWorker
    | .schedulingError => step ∈ sets.schedulingError := by
  cases cause <;> simp [SetSteps.Blames, SetSteps.source, SetSteps.upstream, Cause.spreads]

theorem mem_upstream_noteCauses :
    other ∈ (noteCauses currentStep step (sets, flags)).1.upstream cause ↔
      other ∈ sets.upstream cause ∨ other = currentStep ∧ sets.Blames cause step := by
  have hinsert : ∀ (noted : Finset α) (blamed : Prop) [Decidable blamed],
      other ∈ (if blamed then insert currentStep noted else noted) ↔
        other ∈ noted ∨ other = currentStep ∧ blamed := by
    intro noted blamed _
    by_cases hblamed : blamed
    · rw [if_pos hblamed, Finset.mem_insert, or_comm, and_iff_left hblamed]
    · rw [if_neg hblamed, or_iff_left fun h => hblamed h.2]
  rw [noteCauses_eq, blames_iff]
  cases cause <;> exact hinsert ..

theorem of_noteCauses :
    (noteCauses currentStep step (sets, flags)).2.of cause = true ↔
      flags.of cause = true ∨ sets.Blames cause step := by
  rw [noteCauses_eq, blames_iff]
  cases cause <;> simp only [UpstreamFlags.of, Bool.or_eq_true, decide_eq_true_eq]

theorem withoutCauses_noteCauses :
    (noteCauses currentStep step (sets, flags)).1.withoutCauses = sets.withoutCauses := by
  rw [noteCauses_eq]
  rfl

theorem notRun_noteCauses :
    (noteCauses currentStep step (sets, flags)).1.notRun = sets.notRun := by
  rw [noteCauses_eq]

theorem upstream_noteNotRun :
    (noteNotRun currentStep sets flags).upstream cause = sets.upstream cause := by
  rw [noteNotRun]
  split <;> cases cause <;> rfl

theorem withoutCauses_noteNotRun :
    (noteNotRun currentStep sets flags).withoutCauses = sets.withoutCauses := by
  rw [noteNotRun]
  split <;> rfl

theorem mem_notRun_noteNotRun : other ∈ (noteNotRun currentStep sets flags).notRun ↔
    other ∈ sets.notRun ∨
      other = currentStep ∧ flags = {} ∧ currentStep ∉ sets.runByOtherWorker := by
  rw [noteNotRun]
  split
  · next hcondition => rw [Finset.mem_insert, or_comm, and_iff_left hcondition]
  · next hcondition => rw [or_iff_left fun h => hcondition h.2]

end Notes

/-! ## What the search notes -/

/-- A path of pending steps leads to a requirement in the set. -/
def WaitsFor (requires : α → List α) (pending goal : Finset α) (step : α) : Prop :=
  ∃ last, Relation.ReflTransGen (fun x y => y ∈ requires x ∧ y ∈ pending) step last ∧
    ∃ dep ∈ requires last, dep ∈ goal

def Noted (requires : α → List α) (sets : SetSteps α) (cause : Cause) (step : α) : Prop :=
  step ∈ sets.stillPendingNotExt ∧
    if cause.spreads = true then
      WaitsFor requires sets.stillPendingNotExt (sets.source cause) step
    else ∃ dep ∈ requires step, dep ∈ sets.source cause

/-- The search finds no cause. -/
def Unexplained (requires : α → List α) (sets : SetSteps α) (step : α) : Prop :=
  step ∈ sets.stillPendingNotExt ∧ (∀ cause, ¬Noted requires sets cause step) ∧
    step ∉ sets.runByOtherWorker

/-- The notes are right, and complete for the visited steps whose search has ended. -/
structure Search.Agrees (requires : α → List α) (sets : SetSteps α) (current : Finset α)
    (search : Search α) : Prop where
  base : search.sets.withoutCauses = sets.withoutCauses
  sound : ∀ cause, ∀ step ∈ search.sets.upstream cause, Noted requires sets cause step
  complete : ∀ step ∈ search.visited, step ∉ current → ∀ cause,
    Noted requires sets cause step → step ∈ search.sets.upstream cause
  notRunSound : ∀ step ∈ search.sets.notRun, Unexplained requires sets step
  notRunComplete : ∀ step ∈ search.visited, step ∉ current → Unexplained requires sets step →
    step ∈ search.sets.notRun

structure Search.Grows (first last : Search α) : Prop where
  visited : first.visited ⊆ last.visited
  upstream : ∀ cause, first.sets.upstream cause ⊆ last.sets.upstream cause

/-- A search for a step ends, with its notes in order. -/
def Search.Finds (requires : α → List α) (sets : SetSteps α) (current : Finset α) (step : α)
    (first : Search α) (run : ℕ → Option (Search α)) : Prop :=
  ∃ last, Program.Yields run last ∧ last.Agrees requires sets current ∧ first.Grows last ∧
    step ∈ last.visited

section Paths

variable {requires : α → List α} {sets : SetSteps α} {pending goal : Finset α} {step : α}

omit [DecidableEq α] in
theorem waitsFor_iff : WaitsFor requires pending goal step ↔
    ∃ dep ∈ requires step, dep ∈ goal ∨ dep ∈ pending ∧ WaitsFor requires pending goal dep := by
  constructor
  · rintro ⟨last, hpath, hend⟩
    cases Relation.ReflTransGen.cases_head hpath with
    | inl heq =>
        obtain ⟨dep, hdep, hgoal⟩ := hend
        exact ⟨dep, heq ▸ hdep, .inl hgoal⟩
    | inr hfirst =>
        obtain ⟨dep, ⟨hdep, hpending⟩, hrest⟩ := hfirst
        exact ⟨dep, hdep, .inr ⟨hpending, last, hrest, hend⟩⟩
  · rintro ⟨dep, hdep, hgoal | ⟨hpending, last, hpath, hend⟩⟩
    · exact ⟨step, .refl, dep, hdep, hgoal⟩
    · exact ⟨last, hpath.head ⟨hdep, hpending⟩, hend⟩

omit [DecidableEq α] in
/-- A step has a cause where one of its requirements is to blame. -/
theorem noted_iff {cause : Cause} : Noted requires sets cause step ↔
    step ∈ sets.stillPendingNotExt ∧ ∃ dep ∈ requires step,
      dep ∈ sets.source cause ∨ cause.spreads = true ∧ Noted requires sets cause dep := by
  cases hspreads : cause.spreads with
  | true =>
      simp only [Noted, hspreads, if_true, true_and]
      rw [waitsFor_iff]
  | false => simp only [Noted, hspreads, Bool.false_eq_true, if_false, false_and, or_false]

end Paths

section Searching

variable {requires : α → List α} {sets : SetSteps α} {current : Finset α}
  {first middle last search : Search α} {step currentStep : α} {cause : Cause}

namespace Search

omit [DecidableEq α] in
theorem Grows.refl (search : Search α) : search.Grows search :=
  ⟨fun _ h => h, fun _ _ h => h⟩

omit [DecidableEq α] in
theorem Grows.trans (h : first.Grows middle) (h' : middle.Grows last) : first.Grows last :=
  ⟨h.visited.trans h'.visited, fun cause => (h.upstream cause).trans (h'.upstream cause)⟩

namespace Agrees

omit [DecidableEq α]

theorem source_eq (h : search.Agrees requires sets current) (cause : Cause) :
    search.sets.source cause = sets.source cause := by
  have hsource : ∀ sets : SetSteps α, sets.withoutCauses.source cause = sets.source cause := by
    intro sets
    cases cause <;> rfl
  rw [← hsource, h.base, hsource]

theorem stillPending_eq (h : search.Agrees requires sets current) :
    search.sets.stillPendingNotExt = sets.stillPendingNotExt := by
  have hbase := congrArg SetSteps.stillPendingNotExt h.base
  exact hbase

theorem runByOtherWorker_eq (h : search.Agrees requires sets current) :
    search.sets.runByOtherWorker = sets.runByOtherWorker := by
  have hbase := congrArg SetSteps.runByOtherWorker h.base
  exact hbase

/-- A visited requirement is blamed where it is or has a cause. -/
theorem blames_iff (h : search.Agrees requires sets current) (hvisited : step ∈ search.visited)
    (hcurrent : step ∉ current) : search.sets.Blames cause step ↔
      step ∈ sets.source cause ∨ cause.spreads = true ∧ Noted requires sets cause step := by
  rw [SetSteps.Blames, h.source_eq]
  have hnoted : step ∈ search.sets.upstream cause ↔ Noted requires sets cause step :=
    ⟨h.sound cause step, h.complete step hvisited hcurrent cause⟩
  rw [hnoted]

end Agrees

/-- The search enters a step. -/
theorem Agrees.enter (h : search.Agrees requires sets current) (step : α) :
    Agrees requires sets (insert step current)
      { search with visited := insert step search.visited } := by
  have hold : ∀ other ∈ insert step search.visited, other ∉ insert step current →
      other ∈ search.visited ∧ other ∉ current := by
    intro other hother hcurrent
    rw [Finset.mem_insert, not_or] at hcurrent
    exact ⟨Finset.mem_of_mem_insert_of_ne hother hcurrent.1, hcurrent.2⟩
  constructor
  · exact h.base
  · exact h.sound
  · intro other hother hcurrent
    exact h.complete other (hold other hother hcurrent).1 (hold other hother hcurrent).2
  · exact h.notRunSound
  · intro other hother hcurrent
    exact h.notRunComplete other (hold other hother hcurrent).1 (hold other hother hcurrent).2

/-- Nothing is to be noted for a step that is not pending. -/
theorem Agrees.enterOther (h : search.Agrees requires sets current)
    (hpending : step ∉ sets.stillPendingNotExt) :
    Agrees requires sets current { search with visited := insert step search.visited } := by
  constructor
  · exact h.base
  · exact h.sound
  · intro other hother hcurrent cause hnoted
    rcases Finset.mem_insert.mp hother with rfl | hvisited
    · exact (hpending hnoted.1).elim
    · exact h.complete other hvisited hcurrent cause hnoted
  · exact h.notRunSound
  · intro other hother hcurrent hunexplained
    rcases Finset.mem_insert.mp hother with rfl | hvisited
    · exact (hpending hunexplained.1).elim
    · exact h.notRunComplete other hvisited hcurrent hunexplained

/-- The search notes the causes of a requirement. -/
theorem Agrees.note (h : search.Agrees requires sets current) {flags : UpstreamFlags}
    (hvisited : step ∈ search.visited) (hcurrent : step ∉ current)
    (hpending : currentStep ∈ sets.stillPendingNotExt) (hstep : step ∈ requires currentStep) :
    Agrees requires sets current
      { search with sets := (noteCauses currentStep step (search.sets, flags)).1 } := by
  constructor
  · exact withoutCauses_noteCauses.trans h.base
  · intro cause other hother
    rcases mem_upstream_noteCauses.mp hother with hold | ⟨rfl, hblames⟩
    · exact h.sound cause other hold
    · exact noted_iff.mpr ⟨hpending, step, hstep, (h.blames_iff hvisited hcurrent).mp hblames⟩
  · intro other hother hnew cause hnoted
    exact mem_upstream_noteCauses.mpr (.inl (h.complete other hother hnew cause hnoted))
  · intro other hother
    dsimp only at hother
    rw [notRun_noteCauses] at hother
    exact h.notRunSound other hother
  · intro other hother hnew hunexplained
    dsimp only
    rw [notRun_noteCauses]
    exact h.notRunComplete other hother hnew hunexplained

end Search

/-- What the flags and the sets say after some of the requirements. -/
structure Met (requires : α → List α) (sets : SetSteps α) (current : Finset α) (currentStep : α)
    (first : Search α) (before : List α) (met : Search α × UpstreamFlags) : Prop where
  agrees : met.1.Agrees requires sets current
  grows : first.Grows met.1
  flags : ∀ cause, met.2.of cause = true ↔ ∃ dep ∈ before,
    dep ∈ sets.source cause ∨ cause.spreads = true ∧ Noted requires sets cause dep
  noted : ∀ cause, met.2.of cause = true → currentStep ∈ met.1.sets.upstream cause

/-- One round of the loop over the requirements. -/
theorem Met.round {before : List α} {met : Search α × UpstreamFlags}
    {run : ℕ → α → Search α → Option (Search α)}
    (hmet : Met requires sets current currentStep first before met)
    (hpending : currentStep ∈ sets.stillPendingNotExt) (hstep : step ∈ requires currentStep)
    (hcurrent : step ∉ current)
    (hfinds : ∀ search : Search α, search.Agrees requires sets current →
      search.Finds requires sets current step fun fuel => run fuel step search) :
    ∃ last, Program.Yields (fun fuel => meetStep (run fuel) currentStep met step) last ∧
      Met requires sets current currentStep first (before ++ [step]) last := by
  obtain ⟨search, flags⟩ := met
  obtain ⟨found, hfound, hagrees, hgrows, hvisited⟩ : search.Finds requires sets current step
      fun fuel => if step ∈ search.visited then some search else run fuel step search := by
    by_cases hvisited : step ∈ search.visited
    · exact ⟨search, .of_eq fun _ => if_pos hvisited, hmet.agrees, .refl search, hvisited⟩
    · simp only [if_neg hvisited]
      exact hfinds search hmet.agrees
  refine ⟨({ found with sets := (noteCauses currentStep step (found.sets, flags)).1 },
    (noteCauses currentStep step (found.sets, flags)).2), hfound.bind (.of_eq fun _ => rfl),
    ?_, ?_, ?_, ?_⟩
  · exact hagrees.note hvisited hcurrent hpending hstep
  · refine hmet.grows.trans (hgrows.trans ⟨fun _ h => h, fun cause other hother => ?_⟩)
    exact mem_upstream_noteCauses.mpr (.inl hother)
  · intro cause
    rw [of_noteCauses, hmet.flags, hagrees.blames_iff hvisited hcurrent]
    simp only [List.mem_append, List.mem_singleton, or_and_right, exists_or, exists_eq_left]
  · intro cause hflag
    dsimp only at hflag ⊢
    rw [of_noteCauses] at hflag
    rw [mem_upstream_noteCauses]
    cases hflag with
    | inl hold => exact .inl (hgrows.upstream cause (hmet.noted cause hold))
    | inr hblames => exact .inr ⟨rfl, hblames⟩

omit [DecidableEq α] in
/-- The flags after the loop say which causes the step has. -/
theorem Met.flags_iff {met : Search α × UpstreamFlags}
    (hmet : Met requires sets current step first (requires step) met)
    (hpending : step ∈ sets.stillPendingNotExt) (cause : Cause) :
    met.2.of cause = true ↔ Noted requires sets cause step := by
  rw [hmet.flags, noted_iff, and_iff_right hpending]

/-- The search leaves a step. -/
theorem Met.leave {met : Search α × UpstreamFlags}
    (hmet : Met requires sets (insert step current) step first (requires step) met)
    (hpending : step ∈ sets.stillPendingNotExt) :
    Search.Agrees requires sets current
      { met.1 with sets := noteNotRun step met.1.sets met.2 } := by
  have hflags : met.2 = {} ∧ step ∉ met.1.sets.runByOtherWorker ↔
      Unexplained requires sets step := by
    rw [flags_eq_iff, hmet.agrees.runByOtherWorker_eq, Unexplained, and_iff_right hpending]
    simp only [← Bool.not_eq_true, hmet.flags_iff hpending]
  have hother : ∀ other, other ∉ current → other ≠ step → other ∉ insert step current :=
    fun other hcurrent hne hmem => (Finset.mem_insert.mp hmem).elim hne hcurrent
  constructor
  · exact withoutCauses_noteNotRun.trans hmet.agrees.base
  · intro cause other hother
    dsimp only at hother
    rw [upstream_noteNotRun] at hother
    exact hmet.agrees.sound cause other hother
  · intro other hvisited hcurrent cause hnoted
    dsimp only
    rw [upstream_noteNotRun]
    by_cases heq : other = step
    · rw [heq] at hnoted ⊢
      exact hmet.noted cause ((hmet.flags_iff hpending cause).mpr hnoted)
    · exact hmet.agrees.complete other hvisited (hother other hcurrent heq) cause hnoted
  · intro other hother
    dsimp only at hother
    rw [mem_notRun_noteNotRun, hflags] at hother
    rcases hother with hold | ⟨rfl, hunexplained⟩
    · exact hmet.agrees.notRunSound other hold
    · exact hunexplained
  · intro other hvisited hcurrent hunexplained
    dsimp only
    rw [mem_notRun_noteNotRun, hflags]
    by_cases heq : other = step
    · exact .inr ⟨heq, heq ▸ hunexplained⟩
    · exact .inl (hmet.agrees.notRunComplete other hvisited (hother other hcurrent heq)
        hunexplained)

/-- The search below a step, by induction on what is below it. -/
theorem depthFirstSearch_finds (hgrounded : Grounded requires step)
    (hclear : ∀ other, Leads requires step other → other ∉ current)
    (hagrees : search.Agrees requires sets current) :
    search.Finds requires sets current step fun fuel =>
      depthFirstSearch requires fuel step search := by
  induction hgrounded generalizing current search with
  | intro step hbelow ih =>
  have henter := hagrees.enter step
  by_cases hpending : step ∈ sets.stillPendingNotExt
  · -- the requirements are searched while the step itself is still unfinished
    have hbody : ∀ before dep after met, requires step = before ++ dep :: after →
        Met requires sets (insert step current) step
          { search with visited := insert step search.visited } before met →
        ∃ last, Program.Yields
            (fun fuel => meetStep (depthFirstSearch requires fuel) step met dep) last ∧
          Met requires sets (insert step current) step
            { search with visited := insert step search.visited } (before ++ [dep]) last := by
      intro before dep after met hrequires hmet
      have hdep : dep ∈ requires step := by
        rw [hrequires]
        exact List.mem_append_right _ (List.mem_cons_self ..)
      have hclearDep : ∀ other, Leads requires dep other → other ∉ insert step current := by
        intro other hleads hmem
        rcases Finset.mem_insert.mp hmem with rfl | hcurrent
        · exact Grounded.not_leads (.intro other hbelow) hdep hleads
        · exact hclear other (hleads.head hdep) hcurrent
      exact hmet.round hpending hdep (hclearDep dep .refl) fun search hsearch =>
        ih dep hdep hclearDep hsearch
    have hfirst : Met requires sets (insert step current) step
        { search with visited := insert step search.visited } []
        ({ search with visited := insert step search.visited }, {}) := by
      refine ⟨henter, .refl _, fun cause => ?_, fun cause hflag => ?_⟩
      · cases cause <;> simp [UpstreamFlags.of]
      · cases cause <;> cases hflag
    obtain ⟨met, hmetRun, hmet⟩ := Program.Yields.foldlM hbody hfirst
    have hstep : step ∈ met.1.visited := hmet.grows.visited (Finset.mem_insert_self ..)
    have hend : Program.Yields (fun fuel =>
        ((requires step).foldlM (meetStep (depthFirstSearch requires fuel) step)
          ({ search with visited := insert step search.visited }, {})).bind fun met =>
            some { met.1 with sets := noteNotRun step met.1.sets met.2 })
        { met.1 with sets := noteNotRun step met.1.sets met.2 } :=
      hmetRun.bind (.of_eq fun _ => rfl)
    refine ⟨_, hend.succ fun fuel => ?_, hmet.leave hpending, ?_, hstep⟩
    · rw [depthFirstSearch]
      dsimp only
      rw [if_pos (hagrees.stillPending_eq ▸ hpending)]
    · refine ⟨fun other hother => hmet.grows.visited (Finset.mem_insert_of_mem hother),
        fun cause other hother => ?_⟩
      dsimp only
      rw [upstream_noteNotRun]
      exact hmet.grows.upstream cause hother
  · refine ⟨{ search with visited := insert step search.visited },
      Program.Yields.succ (fun fuel => ?_) (.of_eq fun _ => rfl),
      hagrees.enterOther hpending, ?_, Finset.mem_insert_self ..⟩
    · rw [depthFirstSearch]
      dsimp only
      rw [if_neg (hagrees.stillPending_eq ▸ hpending)]
    · exact ⟨Finset.subset_insert .., fun _ _ h => h⟩

open Classical in
/-- The sets after the search. -/
noncomputable def notedSets (requires : α → List α) (sets : SetSteps α) : SetSteps α :=
  { sets with
    upstreamFailure := sets.stillPendingNotExt.filter (Noted requires sets .failure)
    upstreamMissingDependency :=
      sets.stillPendingNotExt.filter (Noted requires sets .missingDependency)
    upstreamRunByOtherWorker :=
      sets.stillPendingNotExt.filter (Noted requires sets .runByOtherWorker)
    upstreamSchedulingError :=
      sets.stillPendingNotExt.filter (Noted requires sets .schedulingError)
    notRun := sets.stillPendingNotExt.filter (Unexplained requires sets) }

omit [DecidableEq α] in
theorem mem_upstream_notedSets :
    step ∈ (notedSets requires sets).upstream cause ↔ Noted requires sets cause step := by
  have hfilter : step ∈ (notedSets requires sets).upstream cause ↔
      step ∈ sets.stillPendingNotExt ∧ Noted requires sets cause step := by
    classical
    cases cause <;> exact Finset.mem_filter
  exact hfilter.trans (and_iff_right_of_imp fun h => h.1)

omit [DecidableEq α] in
theorem mem_notRun_notedSets :
    step ∈ (notedSets requires sets).notRun ↔ Unexplained requires sets step := by
  have hfilter : step ∈ (notedSets requires sets).notRun ↔
      step ∈ sets.stillPendingNotExt ∧ Unexplained requires sets step := by
    classical
    exact Finset.mem_filter
  exact hfilter.trans (and_iff_right_of_imp fun h => h.1)

omit [DecidableEq α] in
/-- Once all pending steps are visited, the sets are determined. -/
theorem Search.Agrees.sets_eq (h : search.Agrees requires sets ∅)
    (hvisited : ∀ step ∈ sets.stillPendingNotExt, step ∈ search.visited) :
    search.sets = notedSets requires sets := by
  have hupstream : ∀ cause,
      search.sets.upstream cause = (notedSets requires sets).upstream cause := by
    intro cause
    ext other
    rw [mem_upstream_notedSets]
    constructor
    · exact h.sound cause other
    · intro hnoted
      exact h.complete other (hvisited other hnoted.1) (Finset.notMem_empty other) cause hnoted
  have hnotRun : search.sets.notRun = (notedSets requires sets).notRun := by
    ext other
    rw [mem_notRun_notedSets]
    constructor
    · exact h.notRunSound other
    · intro hunexplained
      exact h.notRunComplete other (hvisited other hunexplained.1) (Finset.notMem_empty other)
        hunexplained
  have hbase : search.sets.withoutCauses = (notedSets requires sets).withoutCauses := h.base
  have hsets : ∀ sets other : SetSteps α, sets.withoutCauses = other.withoutCauses →
      (∀ cause, sets.upstream cause = other.upstream cause) → sets.notRun = other.notRun →
      sets = other := by
    intro sets other hbase hupstream hnotRun
    have hfailure := hupstream .failure
    have hmissing := hupstream .missingDependency
    have hrun := hupstream .runByOtherWorker
    have herror := hupstream .schedulingError
    cases sets
    cases other
    simp_all [SetSteps.withoutCauses, SetSteps.upstream]
  exact hsets _ _ hbase hupstream hnotRun

/-- In whatever order the pending steps are searched, the sets come out the same. -/
theorem populateUnknownStatuses_yields {order : List α}
    (hgrounded : ∀ step ∈ sets.stillPendingNotExt, Grounded requires step)
    (hfresh : sets.withoutCauses = sets) (horder : order.toFinset = sets.stillPendingNotExt) :
    Program.Yields (fun fuel => populateUnknownStatuses requires fuel sets order)
      (notedSets requires sets) := by
  have hstart : Search.Agrees requires sets ∅ { sets } := by
    have hnothing : ∀ cause step, step ∉ sets.upstream cause := by
      intro cause step
      rw [← hfresh]
      cases cause <;> exact Finset.notMem_empty step
    refine ⟨rfl, fun cause step hstep => (hnothing cause step hstep).elim, nofun,
      fun step hstep => ?_, nofun⟩
    dsimp only at hstep
    rw [← hfresh] at hstep
    exact (Finset.notMem_empty step hstep).elim
  have hbody : ∀ before step after search, order = before ++ step :: after →
      (Search.Agrees requires sets ∅ search ∧ ∀ step ∈ before, step ∈ search.visited) →
      ∃ last, Program.Yields (fun fuel => depthFirstSearch requires fuel step search) last ∧
        Search.Agrees requires sets ∅ last ∧
          ∀ other ∈ before ++ [step], other ∈ last.visited := by
    intro before step after search hitems hsearch
    obtain ⟨hagrees, hvisited⟩ := hsearch
    have hpending : step ∈ sets.stillPendingNotExt := by
      rw [← horder, List.mem_toFinset, hitems]
      exact List.mem_append_right _ (List.mem_cons_self ..)
    obtain ⟨last, hlast, hagrees, hgrows, hstep⟩ :=
      depthFirstSearch_finds (hgrounded step hpending) (fun _ _ => Finset.notMem_empty _) hagrees
    refine ⟨last, hlast, hagrees, fun other hother => ?_⟩
    rcases List.mem_append.mp hother with hbefore | hself
    · exact hgrows.visited (hvisited other hbefore)
    · rw [List.mem_singleton.mp hself]
      exact hstep
  obtain ⟨last, ⟨bound, hlast⟩, hagrees, hvisited⟩ :=
    Program.Yields.foldlM hbody ⟨hstart, nofun⟩
  refine ⟨bound, fun fuel hfuel => ?_⟩
  have hrun := hlast fuel hfuel
  dsimp only at hrun
  dsimp only [populateUnknownStatuses]
  rw [hrun, Option.map_some, hagrees.sets_eq]
  intro step hstep
  rw [← horder, List.mem_toFinset] at hstep
  exact hvisited step hstep

/-- The sets of a summary do not depend on the order either. -/
theorem summaryDict_yields {stepHistory : List (Note α)} {runByOtherWorker : Finset α}
    {order : List α}
    (hgrounded : ∀ step ∈ (partitionSteps stepHistory).stillPendingNotExt, Grounded requires step)
    (horder : order.toFinset = (partitionSteps stepHistory).stillPendingNotExt) :
    Program.Yields (fun fuel => summaryDict requires fuel stepHistory runByOtherWorker order)
      (notedSets requires { partitionSteps stepHistory with runByOtherWorker }) :=
  populateUnknownStatuses_yields hgrounded rfl horder

end Searching

/-! ## What the summary explains -/

/-- A pending step is listed under the causes that it waits for, or it was not run. -/
structure Explains (requires : α → List α) (sets result : SetSteps α) : Prop where
  causes : ∀ cause, ∀ step ∈ sets.stillPendingNotExt, step ∈ result.upstream cause ↔
    WaitsFor requires sets.stillPendingNotExt (sets.source cause) step
  notRun : ∀ step ∈ sets.stillPendingNotExt, step ∈ result.notRun ↔
    (∀ cause, ¬WaitsFor requires sets.stillPendingNotExt (sets.source cause) step) ∧
      step ∉ sets.runByOtherWorker

/-- Every pending step that waits for a step with a scheduling error requires one itself. -/
def ErrorsAreNear (requires : α → List α) (sets : SetSteps α) : Prop :=
  ∀ step ∈ sets.stillPendingNotExt,
    WaitsFor requires sets.stillPendingNotExt sets.schedulingError step →
      ∃ dep ∈ requires step, dep ∈ sets.schedulingError

omit [DecidableEq α] in
theorem explains_iff_errorsAreNear {requires : α → List α} {sets : SetSteps α} :
    Explains requires sets (notedSets requires sets) ↔ ErrorsAreNear requires sets := by
  constructor
  · intro hexplains step hstep hwaits
    have hnoted := (hexplains.causes .schedulingError step hstep).mpr hwaits
    exact (mem_upstream_notedSets.mp hnoted).2
  · intro hnear
    have hnoted : ∀ cause, ∀ step ∈ sets.stillPendingNotExt, Noted requires sets cause step ↔
        WaitsFor requires sets.stillPendingNotExt (sets.source cause) step := by
      intro cause step hstep
      rw [Noted, and_iff_right hstep]
      cases cause with
      | schedulingError =>
          refine ⟨fun ⟨dep, hdep, herror⟩ => ⟨step, .refl, dep, hdep, herror⟩, hnear step hstep⟩
      | _ => exact Iff.rfl
    constructor
    · intro cause step hstep
      rw [mem_upstream_notedSets]
      exact hnoted cause step hstep
    · intro step hstep
      rw [mem_notRun_notedSets, Unexplained, and_iff_right hstep]
      exact and_congr_left fun _ => forall_congr' fun cause => not_congr (hnoted cause step hstep)

/-- The summary explains the pending steps, in whatever order it looks at them, where scheduling
errors are near. -/
theorem populateUnknownStatuses_explains_iff (requires : α → List α) (nodes : Finset α)
    (hnodes : ∀ step ∈ nodes, ∀ dep ∈ requires step, dep ∈ nodes) (hacyclic : Acyclic requires)
    (sets : SetSteps α) (hpending : sets.stillPendingNotExt ⊆ nodes)
    (hfresh : sets.withoutCauses = sets) :
    (∃ result, (∀ order : List α, order.Nodup → order.toFinset = sets.stillPendingNotExt →
        ∃ depth, ∀ fuel, depth ≤ fuel →
          populateUnknownStatuses requires fuel sets order = some result) ∧
      Explains requires sets result) ↔ ErrorsAreNear requires sets := by
  have hyields : ∀ order : List α, order.toFinset = sets.stillPendingNotExt →
      Program.Yields (fun fuel => populateUnknownStatuses requires fuel sets order)
        (notedSets requires sets) := fun order horder =>
    populateUnknownStatuses_yields (fun step hstep => hacyclic.grounded hnodes (hpending hstep))
      hfresh horder
  rw [← explains_iff_errorsAreNear]
  constructor
  · rintro ⟨result, hresult, hexplains⟩
    obtain ⟨order, horder, hnodup⟩ := sets.stillPendingNotExt.exists_list_nodup_eq
    have hsame : notedSets requires sets = result :=
      (hyields order hnodup).unique (hresult order horder hnodup)
    rw [hsame]
    exact hexplains
  · intro hexplains
    exact ⟨notedSets requires sets, fun order _ horder => hyields order horder, hexplains⟩

/-- Each step requires the one before it. -/
def chainRequires : ℕ → List ℕ
  | 0 => []
  | step + 1 => [step]

theorem acyclic_chainRequires : Acyclic chainRequires := by
  apply Acyclic.of_rank id
  intro step dep hdep
  cases step with
  | zero => cases hdep
  | succ step =>
      rw [List.mem_singleton.mp hdep]
      exact Nat.lt_succ_self step

/-- The history of a chain that ends in a scheduling error. -/
def errorHistory (pending : List ℕ) : List (Note ℕ) :=
  pending.map (fun step => (step, .pending, some true)) ++ [(0, .unknown, some false)]

theorem explains_error_nearby :
    let sets := partitionSteps (errorHistory [1])
    (∃ result, (∀ order : List ℕ, order.Nodup → order.toFinset = sets.stillPendingNotExt →
        ∃ depth, ∀ fuel, depth ≤ fuel →
          populateUnknownStatuses chainRequires fuel sets order = some result) ∧
      Explains chainRequires sets result) ↔ ErrorsAreNear chainRequires sets :=
  populateUnknownStatuses_explains_iff chainRequires {0, 1} (by decide) acyclic_chainRequires _
    (by decide) rfl

/-- The step in front of the one with the error is left without a cause. -/
theorem not_explains_error_upstream :
    let sets := partitionSteps (errorHistory [1, 2])
    Acyclic chainRequires ∧
    ¬∃ result, (∀ order : List ℕ, order.Nodup → order.toFinset = sets.stillPendingNotExt →
        ∃ depth, ∀ fuel, depth ≤ fuel →
          populateUnknownStatuses chainRequires fuel sets order = some result) ∧
      Explains chainRequires sets result := by
  refine ⟨acyclic_chainRequires, ?_⟩
  rintro ⟨result, hresult, hexplains⟩
  have hnodes : ∀ step ∈ ({0, 1, 2} : Finset ℕ), ∀ dep ∈ chainRequires step,
      dep ∈ ({0, 1, 2} : Finset ℕ) := by decide
  have hsubset : (partitionSteps (errorHistory [1, 2])).stillPendingNotExt ⊆ {0, 1, 2} := by decide
  obtain rfl : notedSets chainRequires (partitionSteps (errorHistory [1, 2])) = result :=
    (populateUnknownStatuses_yields (fun step hstep =>
      acyclic_chainRequires.grounded hnodes (hsubset hstep)) rfl (by decide)).unique
      (hresult [1, 2] (by decide) (by decide))
  have hnoted := mem_upstream_notedSets.mp ((hexplains.causes .schedulingError 2 (by decide)).mpr
    ⟨1, .single (by decide), 0, by decide, by decide⟩)
  obtain ⟨dep, hdep, herror⟩ := hnoted.2
  rw [List.mem_singleton.mp hdep] at herror
  revert herror
  decide

end Trun
