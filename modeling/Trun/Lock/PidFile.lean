import Mathlib.Data.Finset.Card
import Mathlib.Logic.Function.Basic
import Trun.Program.Runs

/-!
# The pid file

Processes that run the same command call `acquire_for` with the same directory
and without a kill signal.  Each of them reads the pid file, looks which of the
pids are still about running the command and then overwrites the file; what the
others do may come between any two of these steps.
-/

namespace Trun.Lock

/-- How far a process has come. -/
inductive Stage where
  | absent
  /-- Before `_read_pids_file`. -/
  | started
  /-- With the pids that it has read. -/
  | hasRead (pids : Finset ℕ)
  /-- With the pids that it has read, and those of them that it found alive. -/
  | mayWrite (seen pids : Finset ℕ)
  /-- `acquire_for` has returned `True`. -/
  | acquired
  /-- `acquire_for` has returned `False`. -/
  | refused
  | ended
  deriving DecidableEq

/-- The process is about. -/
def Stage.runs : Stage → Bool
  | .absent | .ended => false
  | _ => true

structure State where
  /-- The pids in the file, if there is one. -/
  pidFile : Option (Finset ℕ)
  stage : ℕ → Stage

inductive Event where
  | start (pid : ℕ)
  | read (pid : ℕ)
  | check (pid : ℕ)
  | write (pid : ℕ)
  | finish (pid : ℕ)
  deriving DecidableEq

namespace State

/-- No process has been started, and those that the file names have ended: pids are not used
again. -/
def initial (pidFile : Option (Finset ℕ)) : State where
  pidFile := pidFile
  stage := fun pid => if pid ∈ pidFile.getD ∅ then .ended else .absent

def readPidsFile (s : State) : Finset ℕ := s.pidFile.getD ∅

/-- `getpcmd(pid) == my_cmd`. -/
def runs (s : State) (pid : ℕ) : Bool := (s.stage pid).runs

def setStage (s : State) (pid : ℕ) (stage : Stage) : State :=
  { s with stage := Function.update s.stage pid stage }

/-- What an event does.  It does nothing to a process that is not there yet. -/
def after (numAvailable : ℕ) (s : State) : Event → State
  | .start pid =>
    match s.stage pid with
    | .absent => s.setStage pid .started
    | _ => s
  | .read pid =>
    match s.stage pid with
    | .started => s.setStage pid (.hasRead s.readPidsFile)
    | _ => s
  | .check pid =>
    match s.stage pid with
    | .hasRead seen =>
        let pids := seen.filter (s.runs ·)
        s.setStage pid (if numAvailable ≤ pids.card then .refused else .mayWrite seen pids)
    | _ => s
  | .write pid =>
    match s.stage pid with
    | .mayWrite _ pids =>
        { s.setStage pid .acquired with pidFile := some (insert pid pids) }
    | _ => s
  | .finish pid => if s.runs pid then s.setStage pid .ended else s

/-- At most `numAvailable` running processes hold the lock, and the file names all of them. -/
structure Admits (numAvailable : ℕ) (s : State) : Prop where
  few : ∀ holders : Finset ℕ, (∀ pid ∈ holders, s.stage pid = .acquired) →
    holders.card ≤ numAvailable
  named : ∀ pid, s.stage pid = .acquired → pid ∈ s.readPidsFile

/-- A process writes the file only while no process holds the lock that was not yet in the file
when it read it. -/
def WritesKnowingly (s : State) (event : Event) : Prop :=
  ∀ pid seen pids, event = .write pid → s.stage pid = .mayWrite seen pids →
    ∀ holder, s.stage holder = .acquired → holder ∈ seen

/-- What holds of the processes that are not done yet. -/
structure Invariant (numAvailable : ℕ) (s : State) : Prop where
  admits : s.Admits numAvailable
  known : ∀ other ∈ s.readPidsFile, s.stage other ≠ .absent
  read : ∀ {pid seen}, s.stage pid = .hasRead seen → ∀ other ∈ seen, s.stage other ≠ .absent
  checked : ∀ {pid seen pids}, s.stage pid = .mayWrite seen pids →
    pids ⊆ seen ∧ pids.card < numAvailable ∧
      ∀ other ∈ seen, s.stage other ≠ .absent ∧ (s.runs other = true → other ∈ pids)

variable {numAvailable : ℕ} {s : State} {pid other : ℕ} {stage : Stage}

@[simp] theorem setStage_self : (s.setStage pid stage).stage pid = stage := by
  simp [setStage]

theorem setStage_other (hother : other ≠ pid) :
    (s.setStage pid stage).stage other = s.stage other := by
  simp [setStage, hother]

theorem invariant_initial (numAvailable : ℕ) (pidFile : Option (Finset ℕ)) :
    Invariant numAvailable (initial pidFile) := by
  have hstage : ∀ pid, (initial pidFile).stage pid = .ended ∨
      (initial pidFile).stage pid = .absent := by
    intro pid
    unfold initial
    dsimp only
    split
    · exact .inl rfl
    · exact .inr rfl
  have hnever : ∀ {pid stage}, (initial pidFile).stage pid = stage → stage.runs = true → False := by
    intro pid stage h hruns
    rcases hstage pid with h' | h' <;> rw [h'] at h <;> subst h <;> cases hruns
  constructor
  · constructor
    · intro holders hholders
      have hempty : holders = ∅ :=
        Finset.eq_empty_of_forall_notMem fun pid hpid => hnever (hholders pid hpid) rfl
      simp [hempty]
    · exact fun pid h => (hnever h rfl).elim
  · intro other hother
    have hmem : other ∈ pidFile.getD ∅ := hother
    simp [initial, hmem]
  · exact fun h => (hnever h rfl).elim
  · exact fun h => (hnever h rfl).elim

/-- A process comes to a stage in which it neither writes nor holds the lock. -/
theorem Invariant.setStage (hinv : Invariant numAvailable s) (hstage : stage ≠ .absent)
    (hacquired : stage ≠ .acquired)
    (hread : ∀ seen, stage = .hasRead seen → ∀ other ∈ seen, s.stage other ≠ .absent)
    (hchecked : ∀ seen pids, stage = .mayWrite seen pids → pids ⊆ seen ∧
      pids.card < numAvailable ∧
        ∀ other ∈ seen, s.stage other ≠ .absent ∧ (s.runs other = true → other ∈ pids))
    (hruns : s.stage pid ≠ .absent → stage.runs = true → s.runs pid = true) :
    Invariant numAvailable (s.setStage pid stage) := by
  have hpresent : ∀ {other}, s.stage other ≠ .absent →
      (s.setStage pid stage).stage other ≠ .absent := by
    intro other h
    by_cases hother : other = pid
    · rwa [hother, setStage_self]
    · rwa [setStage_other hother]
  have hholder : ∀ {other}, (s.setStage pid stage).stage other = .acquired →
      s.stage other = .acquired := by
    intro other h
    by_cases hother : other = pid
    · rw [hother, setStage_self] at h
      exact absurd h hacquired
    · rwa [setStage_other hother] at h
  have hlive : ∀ {other}, s.stage other ≠ .absent → (s.setStage pid stage).runs other = true →
      s.runs other = true := by
    intro other h hnow
    by_cases hother : other = pid
    · subst hother
      rw [State.runs, setStage_self] at hnow
      exact hruns h hnow
    · rwa [State.runs, setStage_other hother] at hnow
  constructor
  · exact ⟨fun holders h => hinv.admits.few holders fun pid hpid => hholder (h pid hpid),
      fun pid h => hinv.admits.named pid (hholder h)⟩
  · exact fun other h => hpresent (hinv.known other h)
  · intro other seen h named hnamed
    apply hpresent
    by_cases hother : other = pid
    · rw [hother, setStage_self] at h
      exact hread seen h named hnamed
    · rw [setStage_other hother] at h
      exact hinv.read h named hnamed
  · intro other seen pids h
    have hfacts : pids ⊆ seen ∧ pids.card < numAvailable ∧
        ∀ other ∈ seen, s.stage other ≠ .absent ∧ (s.runs other = true → other ∈ pids) := by
      by_cases hother : other = pid
      · rw [hother, setStage_self] at h
        exact hchecked seen pids h
      · rw [setStage_other hother] at h
        exact hinv.checked h
    obtain ⟨hsub, hcard, hseen⟩ := hfacts
    refine ⟨hsub, hcard, fun named hnamed => ?_⟩
    obtain ⟨hthere, hpids⟩ := hseen named hnamed
    exact ⟨hpresent hthere, fun hnow => hpids (hlive hthere hnow)⟩

/-- A process writes the file. -/
theorem Invariant.write (hinv : Invariant numAvailable s) {seen pids : Finset ℕ}
    (hstage : s.stage pid = .mayWrite seen pids)
    (hknowing : ∀ holder, s.stage holder = .acquired → holder ∈ seen) :
    Invariant numAvailable { s.setStage pid .acquired with pidFile := some (insert pid pids) } := by
  obtain ⟨hsub, hcard, hseen⟩ := hinv.checked hstage
  set t : State := { s.setStage pid .acquired with pidFile := some (insert pid pids) } with ht
  have hself : t.stage pid = .acquired := setStage_self
  have hrest : ∀ {other}, other ≠ pid → t.stage other = s.stage other := setStage_other
  have hpresent : ∀ {other}, s.stage other ≠ .absent → t.stage other ≠ .absent := by
    intro other h
    by_cases hother : other = pid
    · rw [hother, hself]
      exact nofun
    · rwa [hrest hother]
  have hlive : ∀ {other}, t.runs other = true → s.runs other = true := by
    intro other h
    by_cases hother : other = pid
    · rw [hother, State.runs, hstage]
      rfl
    · rwa [State.runs, hrest hother] at h
  have hheld : ∀ holder, t.stage holder = .acquired → holder ∈ insert pid pids := by
    intro holder h
    by_cases hholder : holder = pid
    · exact Finset.mem_insert.mpr (.inl hholder)
    · rw [hrest hholder] at h
      apply Finset.mem_insert_of_mem
      apply (hseen holder (hknowing holder h)).2
      rw [State.runs, h]
      rfl
  constructor
  · refine ⟨fun holders h => ?_, hheld⟩
    have hholders : holders ⊆ insert pid pids := fun holder hmem => hheld holder (h holder hmem)
    calc holders.card ≤ (insert pid pids).card := Finset.card_le_card hholders
      _ ≤ pids.card + 1 := Finset.card_insert_le pid pids
      _ ≤ numAvailable := hcard
  · intro other hother
    have hmem : other ∈ insert pid pids := hother
    rcases Finset.mem_insert.mp hmem with rfl | hpids
    · rw [hself]
      exact nofun
    · exact hpresent (hseen other (hsub hpids)).1
  · intro other seen' h named hnamed
    have hother : other ≠ pid := by
      rintro rfl
      rw [hself] at h
      cases h
    rw [hrest hother] at h
    exact hpresent (hinv.read h named hnamed)
  · intro other seen' pids' h
    have hother : other ≠ pid := by
      rintro rfl
      rw [hself] at h
      cases h
    rw [hrest hother] at h
    obtain ⟨hsub', hcard', hseen'⟩ := hinv.checked h
    refine ⟨hsub', hcard', fun named hnamed => ?_⟩
    exact ⟨hpresent (hseen' named hnamed).1, fun hnow => (hseen' named hnamed).2 (hlive hnow)⟩

/-- Every event keeps the invariant, if it writes the file knowingly. -/
theorem Invariant.after (hinv : Invariant numAvailable s) {event : Event}
    (hknowing : s.WritesKnowingly event) : Invariant numAvailable (s.after numAvailable event) := by
  cases event with
  | start pid =>
      unfold State.after
      dsimp only
      split
      next hstage =>
        exact hinv.setStage nofun nofun nofun nofun fun h => absurd hstage h
      next => exact hinv
  | read pid =>
      unfold State.after
      dsimp only
      split
      next hstage =>
        refine hinv.setStage nofun nofun ?_ nofun fun _ _ => ?_
        · intro seen h
          cases h
          exact hinv.known
        · rw [State.runs, hstage]
          rfl
      next => exact hinv
  | check pid =>
      unfold State.after
      dsimp only
      split
      next seen hstage =>
        have hruns : s.runs pid = true := by
          rw [State.runs, hstage]
          rfl
        split
        next => exact hinv.setStage nofun nofun nofun nofun fun _ _ => hruns
        next hfew =>
          refine hinv.setStage nofun nofun nofun ?_ fun _ _ => hruns
          intro seen' pids' h
          cases h
          refine ⟨Finset.filter_subset .., Nat.lt_of_not_le hfew, fun other hother => ?_⟩
          exact ⟨hinv.read hstage other hother, fun hnow => Finset.mem_filter.mpr ⟨hother, hnow⟩⟩
      next => exact hinv
  | write pid =>
      unfold State.after
      dsimp only
      split
      next seen pids hstage =>
        exact hinv.write hstage (hknowing pid seen pids rfl hstage)
      next => exact hinv
  | finish pid =>
      unfold State.after
      dsimp only
      split
      next => exact hinv.setStage nofun nofun nofun nofun nofun
      next => exact hinv

/-- A process that writes the file without knowing of a holder drops it from the file. -/
theorem Invariant.writesKnowingly (hinv : Invariant numAvailable s) {event : Event}
    (hadmits : (s.after numAvailable event).Admits numAvailable) : s.WritesKnowingly event := by
  rintro pid seen pids rfl hstage holder hholder
  have hother : holder ≠ pid := by
    rintro rfl
    rw [hstage] at hholder
    cases hholder
  have hafter : s.after numAvailable (.write pid) =
      { s.setStage pid .acquired with pidFile := some (insert pid pids) } := by
    unfold State.after
    dsimp only
    rw [hstage]
  rw [hafter] at hadmits
  have hnamed : holder ∈ insert pid pids :=
    hadmits.named holder ((setStage_other hother).trans hholder)
  exact (hinv.checked hstage).1 (Finset.mem_of_mem_insert_of_ne hnamed hother)

/-- In every interleaving: all states reached admit at most `numAvailable` holders, and name
them in the file, exactly if each process writes the file knowingly. -/
theorem admits_along_iff (numAvailable : ℕ) (pidFile : Option (Finset ℕ)) (events : List Event) :
    Along (State.after numAvailable)
        (fun s event => (s.after numAvailable event).Admits numAvailable) (initial pidFile)
        events ↔
      Along (State.after numAvailable) WritesKnowingly (initial pidFile) events := by
  have hinv := invariant_initial numAvailable pidFile
  generalize initial pidFile = s at hinv
  induction events generalizing s with
  | nil => exact Iff.rfl
  | cons event rest ih =>
      rw [along_cons, along_cons]
      constructor
      · rintro ⟨hadmits, hrest⟩
        have hknowing := hinv.writesKnowingly hadmits
        exact ⟨hknowing, (ih _ (hinv.after hknowing)).mp hrest⟩
      · rintro ⟨hknowing, hrest⟩
        have hinv' := hinv.after hknowing
        exact ⟨hinv'.admits, (ih _ hinv').mpr hrest⟩

/-- Two processes that both read the file before either writes it. -/
def overlapping : List Event :=
  [.start 1, .start 2, .read 1, .read 2, .check 1, .check 2, .write 1, .write 2]

/-- Both of them get the only place. -/
theorem overlapping_holders :
    ¬(runAll (State.after 1) (initial none) overlapping).Admits 1 := by
  intro hadmits
  have hcard := hadmits.few {1, 2} (by decide +kernel)
  revert hcard
  decide

end State

end Trun.Lock
