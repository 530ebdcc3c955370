import Trun.Target.Publishing

/-!
# Temporary files that are left

A file with a temporary name belongs to a writer that has it open, unless the process of its writer
ended, or the block of a `temporary_path` was left by an exception.
-/

namespace Trun.Target

/-- The job whose temporary file is there. -/
def Stage.open : Stage → Option Job
  | .writing job _ | .flushed job => some job
  | _ => none

/-- The event does not end a writer whose temporary file nobody removes: a process that ends, and
a block of `temporary_path` that raises or finds the target there. -/
def LeavesNothing (s : State) : Event → Prop
  | .dies w => (s.writer w).open = none
  | .drops w => ∀ job handle, s.writer w = .writing job handle → job.byCommand = false
  | .finishes w => ∀ job handle, s.writer w = .writing job handle → job.byCommand = true →
      s.disk.file job.path = none
  | _ => True

/-- The names on the disk: those of targets, those that were there before, and the temporary names
of the writers that have their files open. -/
def Tidy (targets : Path → Prop) (before : Disk Path) (s : State) : Prop :=
  ∀ name, (s.disk.file name).isSome → targets name ∨ (before.file name).isSome ∨
    ∃ w job, (s.writer w).open = some job ∧ job.tmpPath = name

variable {targets : Path → Prop} {before : Disk Path} {s : State} {shelf : Shelf}
  {disk' : Disk Path} {w : ℕ} {job : Job} {stage : Stage}

/-- One writer goes on. -/
theorem Tidy.advance (h : Tidy targets before s)
    (hnames : ∀ name, (disk'.file name).isSome → targets name ∨ (s.disk.file name).isSome ∨
      ∃ job, stage.open = some job ∧ job.tmpPath = name)
    (hkeeps : ∀ job, (s.writer w).open = some job → (disk'.file job.tmpPath).isSome →
      targets job.tmpPath ∨ stage.open = some job) :
    Tidy targets before { s.setStage w stage with disk := disk' } := by
  intro name hname
  have hself : ({ s.setStage w stage with disk := disk' } : State).writer w = stage :=
    Function.update_self ..
  obtain htarget | hthere | ⟨job, hopen, htmp⟩ := hnames name hname
  · exact .inl htarget
  · obtain htarget | hbefore | ⟨other, job, hopen, htmp⟩ := h name hthere
    · exact .inl htarget
    · exact .inr (.inl hbefore)
    · subst htmp
      by_cases hother : other = w
      · subst hother
        obtain htarget | hopen' := hkeeps job hopen hname
        · exact .inl htarget
        · exact .inr (.inr ⟨other, job, by rw [hself, hopen'], rfl⟩)
      · refine .inr (.inr ⟨other, job, ?_, rfl⟩)
        rw [← hopen]
        exact congrArg Stage.open (Function.update_of_ne hother ..)
  · exact .inr (.inr ⟨w, job, by rw [hself, hopen], htmp⟩)

/-- A writer without an open file goes on, and touches no file. -/
theorem Tidy.goesOn (h : Tidy targets before s) (hopen : (s.writer w).open = none) :
    Tidy targets before (s.setStage w stage) := by
  have hadvanced : Tidy targets before { s.setStage w stage with disk := s.disk } :=
    h.advance (fun _ hname => .inr (.inl hname)) fun job hjob => by
      rw [hopen] at hjob
      cases hjob
  exact hadvanced

/-- A writer opens its file. -/
theorem Tidy.createsFile (h : Tidy targets before s) (hopen : (s.writer w).open = none) :
    Tidy targets before (s.createFile w job) := by
  refine h.advance (fun name hname => ?_) fun job' hjob => by
    rw [hopen] at hjob
    cases hjob
  by_cases hsame : name = job.tmpPath
  · exact .inr (.inr ⟨job, rfl, hsame.symm⟩)
  · rw [Disk.create_file_other hsame] at hname
    exact .inr (.inl hname)

/-- A writer keeps its file open, and no name changes. -/
theorem Tidy.keepsOpen (h : Tidy targets before s) (hfile : disk'.file = s.disk.file)
    (hopen : stage.open = (s.writer w).open) :
    Tidy targets before { s.setStage w stage with disk := disk' } :=
  h.advance (fun _ hname => .inr (.inl (hfile ▸ hname))) fun _ hjob _ => .inr (hopen.trans hjob)

/-- The object of a writer is collected. -/
theorem Tidy.collects (h : Tidy targets before s)
    (hopen : ∀ job', (s.writer w).open = some job' → job' = job) :
    Tidy targets before { s.setStage w .ended with disk := s.disk.remove job.tmpPath } := by
  refine h.advance (fun name hname => .inr (.inl ?_)) fun job' hjob' hname => ?_
  · obtain ⟨n, hn⟩ := Option.isSome_iff_exists.mp hname
    rw [Disk.file_of_remove hn]
    rfl
  · rw [hopen job' hjob', Disk.remove_file_self] at hname
    cases hname

theorem Tidy.moves (hclear : Clear targets) (hrepresents : Represents targets s shelf)
    (h : Tidy targets before s) : Tidy targets before (s.after (.moves w)) := by
  cases hstage : s.writer w <;> simp only [State.after, hstage]
  case flushed job =>
    have htarget : targets job.path := hrepresents.owned w job (by rw [hstage]; rfl)
    have hne : job.tmpPath ≠ job.path := hclear job job.path htarget htarget
    refine h.advance (fun name hname => ?_) fun job' hjob' hname => ?_
    · by_cases hpath : name = job.path
      · exact .inl (hpath ▸ htarget)
      by_cases htmp : name = job.tmpPath
      · rw [htmp, Disk.rename_file_old hne] at hname
        cases hname
      · rw [Disk.rename_file_other htmp hpath] at hname
        exact .inr (.inl hname)
    · rw [hstage] at hjob'
      obtain rfl := Option.some.inj hjob'
      rw [Disk.rename_file_old hne] at hname
      cases hname
  all_goals exact h

theorem Tidy.finishes (h : Tidy targets before s) (hleaves : LeavesNothing s (.finishes w)) :
    Tidy targets before (s.after (.finishes w)) := by
  cases hstage : s.writer w <;> simp only [State.after, hstage]
  case entered job => exact h.goesOn (by rw [hstage]; rfl)
  case writing job handle =>
    refine h.keepsOpen (by rfl) ?_
    rw [if_neg, hstage]
    · rfl
    · rw [Bool.and_eq_true]
      rintro ⟨hcommand, hthere⟩
      rw [hleaves job handle hstage hcommand] at hthere
      cases hthere
  all_goals exact h

theorem Tidy.drops (h : Tidy targets before s) (hleaves : LeavesNothing s (.drops w)) :
    Tidy targets before (s.after (.drops w)) := by
  cases hstage : s.writer w <;> simp only [State.after, hstage]
  case entered job => exact h.goesOn (by rw [hstage]; rfl)
  case writing job handle =>
    rw [if_neg (by simp [hleaves job handle hstage])]
    refine h.collects fun job' hjob' => ?_
    rw [hstage] at hjob'
    exact (Option.some.inj hjob').symm
  case moved job =>
    split
    · exact h.goesOn (by rw [hstage]; rfl)
    · refine h.collects fun job' hjob' => ?_
      rw [hstage] at hjob'
      cases hjob'
  all_goals exact h

theorem Tidy.after (hclear : Clear targets) (hrepresents : Represents targets s shelf)
    (h : Tidy targets before s) {event : Event} (hleaves : LeavesNothing s event) :
    Tidy targets before (s.after event) := by
  cases event with
  | opens w path number =>
      cases hstage : s.writer w <;> simp only [State.after, hstage]
      case absent => exact h.createsFile (by rw [hstage]; rfl)
      all_goals exact h
  | enters w path number =>
      cases hstage : s.writer w <;> simp only [State.after, hstage]
      case absent => exact h.goesOn (by rw [hstage]; rfl)
      all_goals exact h
  | creates w =>
      cases hstage : s.writer w <;> simp only [State.after, hstage]
      case entered => exact h.createsFile (by rw [hstage]; rfl)
      all_goals exact h
  | writes w data =>
      cases hstage : s.writer w <;> simp only [State.after, hstage]
      case writing => exact h.keepsOpen (rfl : s.disk.file = s.disk.file) (by rw [hstage]; rfl)
      all_goals exact h
  | spills w count =>
      cases hstage : s.writer w <;> simp only [State.after, hstage]
      case writing => exact h.keepsOpen (by rfl) (by rw [hstage]; rfl)
      all_goals exact h
  | finishes w => exact h.finishes hleaves
  | moves w => exact h.moves hclear hrepresents
  | drops w => exact h.drops hleaves
  | dies w =>
      cases hstage : s.writer w <;> simp only [State.after, hstage]
      case absent => exact h
      all_goals exact h.goesOn hleaves
  | removes path =>
      intro name hname
      obtain ⟨n, hn⟩ := Option.isSome_iff_exists.mp hname
      exact h name (by rw [Disk.file_of_remove hn]; rfl)
  | openRead r path =>
      simp only [State.after]
      split <;> exact h
  | reads r count =>
      simp only [State.after]
      split <;> exact h

/-- Where no process ends within a block, and no block of `temporary_path` fails, the only temporary
files are those of the writers that have them open. -/
theorem no_files_left (hclear : Clear targets) {disk : Disk Path} {events : List Event}
    (hproper : Along State.after (fun s event => Proper targets s event ∧ LeavesNothing s event)
      (State.initial disk) events) {name : Path}
    (hname : ((runAll State.after (State.initial disk) events).disk.file name).isSome) :
    targets name ∨ (disk.file name).isSome ∨
      ∃ w job, ((runAll State.after (State.initial disk) events).writer w).open = some job ∧
        job.tmpPath = name := by
  have hstep : ∀ s event, ((∃ shelf, Represents targets s shelf) ∧ Tidy targets disk s) →
      Proper targets s event ∧ LeavesNothing s event →
      (∃ shelf, Represents targets (s.after event) shelf) ∧ Tidy targets disk (s.after event) := by
    rintro s event ⟨⟨shelf, hrepresents⟩, htidy⟩ ⟨hproper, hleaves⟩
    exact ⟨⟨_, hrepresents.after hclear hproper⟩, htidy.after hclear hrepresents hleaves⟩
  have hstart : Tidy targets disk (State.initial disk) := fun name h => .inr (.inl h)
  exact (runAll_invariant State.after _ _ hstep
    ⟨⟨_, represents_initial targets disk⟩, hstart⟩ hproper).2 name hname

/-- A target is written, another writer of it gives up, and a third one is in its block. -/
def halfWritten : List Event :=
  [.opens 0 ['o'] 1, .writes 0 [1, 2], .spills 0 1, .finishes 0, .moves 0, .drops 0,
    .opens 1 ['o'] 2, .writes 1 [3], .drops 1, .opens 2 ['o'] 3, .writes 2 [4], .spills 2 1]

theorem halfWritten_leavesNothing :
    Along State.after LeavesNothing (State.initial emptyDisk) halfWritten := by
  refine ⟨trivial, trivial, trivial, ?_, trivial, ?_, trivial, trivial, ?_, trivial, trivial,
    trivial, trivial⟩
  · rintro job handle h hcommand
    cases h
    cases hcommand
  · rintro job handle h
    cases h
  · rintro job handle h
    cases h
    rfl

theorem no_files_left_halfWritten :
    generateTmpPath ['o'] 3 = ['o'] ∨ (emptyDisk.file (generateTmpPath ['o'] 3)).isSome ∨
      ∃ w job, ((runAll State.after (State.initial emptyDisk) halfWritten).writer w).open =
        some job ∧ job.tmpPath = generateTmpPath ['o'] 3 := by
  have hproper : Along State.after (Proper (· = ['o'])) (State.initial emptyDisk) halfWritten := by
    refine proper_of_nodup (by decide) ?_ fun w job hjob => by cases hjob
    simp [halfWritten, Event.names]
  exact @no_files_left (· = ['o']) (clear_singleton rfl) emptyDisk halfWritten
    (Along.and hproper halfWritten_leavesNothing) _ (by decide +kernel)

end Trun.Target
