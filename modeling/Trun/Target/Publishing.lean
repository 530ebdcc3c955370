import Mathlib.Data.List.Infix
import Trun.Target.Atomic

/-!
# What a target shows

With numbers that no other writer of the same path has at the time, the files behave like a shelf
on which whole contents are put at once.
-/

namespace Trun.Target

/-! ## The temporary names -/

theorem isDigit_of_mem_zeroPadded {width number : ℕ} {c : Char}
    (hc : c ∈ zeroPadded width number) : c.isDigit = true := by
  rcases List.mem_append.mp hc with hzero | hdigit
  · rw [List.eq_of_mem_replicate hzero]
    rfl
  · exact Nat.isDigit_of_mem_toDigits (by omega) (by omega) hdigit

theorem zeroPadded_value (width number : ℕ) :
    Nat.ofDigitChars 10 (zeroPadded width number) 0 = number := by
  rw [zeroPadded, Nat.ofDigitChars_append, Nat.ofDigitChars_replicate_zero, Nat.mul_zero,
    Nat.ofDigitChars_ten_toDigits]

/-- The digits are what follows the last character that is not a digit. -/
theorem takeWhile_isDigit_reverse (path : Path) {digits : List Char}
    (hdigits : ∀ c ∈ digits, c.isDigit = true) :
    (path ++ tmpMark ++ digits).reverse.takeWhile Char.isDigit = digits.reverse := by
  have hreverse : ∀ c ∈ digits.reverse, c.isDigit = true := fun c hc =>
    hdigits c (List.mem_reverse.mp hc)
  rw [List.reverse_append, List.takeWhile_append_of_pos hreverse, List.reverse_append]
  change digits.reverse ++ ('-' :: _).takeWhile Char.isDigit = _
  rw [List.takeWhile_cons_of_neg (by decide), List.append_nil]

theorem tmpName_injective {path path' : Path} {digits digits' : List Char}
    (hdigits : ∀ c ∈ digits, c.isDigit = true) (hdigits' : ∀ c ∈ digits', c.isDigit = true)
    (heq : path ++ tmpMark ++ digits = path' ++ tmpMark ++ digits') :
    path = path' ∧ digits = digits' := by
  have hsame : digits = digits' := by
    rw [← List.reverse_inj, ← takeWhile_isDigit_reverse path hdigits, heq,
      takeWhile_isDigit_reverse path' hdigits']
  subst hsame
  rw [List.append_left_inj, List.append_left_inj] at heq
  exact ⟨heq, rfl⟩

section Slashes

variable {path : Path} {last : Char} (hlast : last.isDigit = true)
include hlast

theorem ne_slash_of_isDigit : last ≠ '/' ∧ last ≠ '\\' := by
  constructor
  all_goals
    rintro rfl
    cases hlast

theorem slashlessPath_digit : slashlessPath (path ++ [last]) = path ++ [last] := by
  obtain ⟨hslash, hback⟩ := ne_slash_of_isDigit hlast
  simp [slashlessPath, hslash, hback]

/-- One slash is cut off again. -/
theorem slashlessPath_trailingSlash (other : Path) :
    slashlessPath (path ++ [last] ++ trailingSlash other) = path ++ [last] := by
  obtain ⟨hslash, hback⟩ := ne_slash_of_isDigit hlast
  unfold trailingSlash
  split
  · split
    · rename_i c _ hc
      obtain rfl | rfl := hc
      · rw [slashlessPath, List.rdropWhile_concat, if_neg (by decide), List.rdropWhile_concat,
          if_pos (by decide)]
        simp [hback]
      · rw [slashlessPath, List.rdropWhile_concat, if_pos (by decide)]
        simp [hslash, hback]
    · rw [List.append_nil]
      exact slashlessPath_digit hlast
  · rw [List.append_nil]
    exact slashlessPath_digit hlast

end Slashes

theorem slashlessPath_of_trailingSlash {path : Path} (hpath : trailingSlash path = []) :
    slashlessPath path = path := by
  obtain rfl | ⟨front, last, rfl⟩ := List.eq_nil_or_concat path
  · rfl
  · have hlast : ¬(last = '\\' ∨ last = '/') := by
      intro h
      simp [trailingSlash, h] at hpath
    rw [not_or] at hlast
    simp [slashlessPath, hlast.1, hlast.2]

/-- What the temporary name begins with. -/
def Job.stem (job : Job) : Path := if job.byCommand then slashlessPath job.path else job.path

def Job.ending (job : Job) : Path := if job.byCommand then trailingSlash job.path else []

theorem Job.tmpPath_eq (job : Job) : ∃ width,
    job.tmpPath = job.stem ++ tmpMark ++ zeroPadded width job.number ++ job.ending ∧
      slashlessPath job.tmpPath = job.stem ++ tmpMark ++ zeroPadded width job.number := by
  have hdigits : ∀ width, ∃ front last, last.isDigit = true ∧
      zeroPadded width job.number = front ++ [last] := by
    intro width
    have hne : zeroPadded width job.number ≠ [] := by
      intro h
      exact Nat.toDigits_ne_nil (List.append_eq_nil_iff.mp h).2
    refine ⟨_, _, ?_, (List.dropLast_append_getLast hne).symm⟩
    exact isDigit_of_mem_zeroPadded (List.getLast_mem hne)
  unfold Job.tmpPath Job.stem Job.ending
  split
  · refine ⟨10, rfl, ?_⟩
    obtain ⟨front, last, hlast, heq⟩ := hdigits 10
    rw [temporaryPath, heq, ← List.append_assoc]
    exact slashlessPath_trailingSlash hlast job.path
  · refine ⟨9, (List.append_nil _).symm, ?_⟩
    obtain ⟨front, last, hlast, heq⟩ := hdigits 9
    rw [generateTmpPath, heq, ← List.append_assoc]
    exact slashlessPath_digit hlast

/-- A temporary name tells what it begins with, the number, and what it ends with. -/
theorem Job.tmpPath_injective {job job' : Job} (heq : job.tmpPath = job'.tmpPath) :
    job.stem = job'.stem ∧ job.number = job'.number ∧ job.ending = job'.ending := by
  obtain ⟨width, hname, hcut⟩ := job.tmpPath_eq
  obtain ⟨width', hname', hcut'⟩ := job'.tmpPath_eq
  have hsame := hcut.symm.trans ((congrArg slashlessPath heq).trans hcut')
  obtain ⟨hstem, hdigits⟩ := tmpName_injective (fun c => isDigit_of_mem_zeroPadded)
    (fun c => isDigit_of_mem_zeroPadded) hsame
  refine ⟨hstem, ?_, ?_⟩
  · rw [← zeroPadded_value width job.number, hdigits, zeroPadded_value]
  · rw [hname, hname', hsame] at heq
    exact List.append_cancel_left heq

/-- Files of the same temporary name were drawn the same number for. -/
theorem Job.drawn_of_tmpPath {job job' : Job} (heq : job.tmpPath = job'.tmpPath) :
    job.drawn = job'.drawn := by
  obtain ⟨hstem, hnumber, hending⟩ := Job.tmpPath_injective heq
  unfold Job.stem at hstem
  unfold Job.ending at hending
  rw [Job.drawn, Job.drawn, hnumber]
  congr 1
  cases hcommand : job.byCommand <;> cases hcommand' : job'.byCommand <;>
    simp only [hcommand, hcommand', if_true, if_false, Bool.false_eq_true] at hstem hending
  · rw [hstem]
  · rw [hstem, slashlessPath_of_trailingSlash hending.symm,
      slashlessPath_of_trailingSlash hending.symm]
  · rw [← hstem, slashlessPath_of_trailingSlash hending, slashlessPath_of_trailingSlash hending]
  · exact hstem

/-! ## The files behave like the shelf -/

/-- No target has a name that is a temporary name of a target. -/
def Clear (targets : Path → Prop) : Prop :=
  ∀ (job : Job) (other : Path), targets job.path → targets other → job.tmpPath ≠ other

/-- The paths are targets, and a number that is drawn for a path is not the number of another
writer of that path that is not done. -/
def Proper (targets : Path → Prop) (s : State) : Event → Prop
  | .opens _ path number | .enters _ path number =>
      targets path ∧ ∀ other job, (s.writer other).job = some job →
        job.drawn ≠ (slashlessPath path, number)
  | .removes path | .openRead _ path => targets path
  | _ => True

/-- What is on the disk for a writer at a stage of its course. -/
inductive Follows (disk : Disk Path) : Stage → Course → Prop
  | absent : Follows disk .absent .absent
  | entered {job : Job} (hcommand : job.byCommand = true) :
      Follows disk (.entered job) (.entered job.path)
  | writing {job : Job} {handle : Handle} (hfile : disk.file job.tmpPath = some handle.file)
      (hoffset : handle.offset = (disk.content handle.file).length) :
      Follows disk (.writing job handle)
        (.writing job.path job.byCommand (disk.content handle.file ++ handle.buffer))
  | flushed {job : Job} {file : ℕ} (hfile : disk.file job.tmpPath = some file) :
      Follows disk (.flushed job) (.final job.path (disk.content file))
  | moved {job : Job} (hfile : disk.file job.tmpPath = none) : Follows disk (.moved job) .ended
  | ended : Follows disk .ended .ended

/-- An open target has the content that was taken from the shelf. -/
def Copies (disk : Disk Path) : Option Reading → Option (List UInt8 × List UInt8) → Prop
  | none, none => True
  | some reading, some (data, got) => disk.content reading.file = data ∧ reading.got = got
  | _, _ => False

/-- The disk with its writers and readers, and the shelf that it stands for. -/
structure Represents (targets : Path → Prop) (s : State) (shelf : Shelf) : Prop where
  shows : ∀ path, targets path → s.disk.read path = shelf.content path
  follows : ∀ w, Follows s.disk (s.writer w) (shelf.course w)
  copies : ∀ r, Copies s.disk (s.reader r) (shelf.copy r)
  /-- A file that is being read has no temporary name. -/
  sealed : ∀ r reading, s.reader r = some reading → reading.file < s.disk.fresh ∧
    ∀ name, s.disk.file name = some reading.file → targets name
  owned : ∀ w job, (s.writer w).job = some job → targets job.path
  distinct : ∀ w other job job', (s.writer w).job = some job → (s.writer other).job = some job' →
    w ≠ other → job.drawn ≠ job'.drawn

theorem represents_initial (targets : Path → Prop) (disk : Disk Path) :
    Represents targets (State.initial disk) (Shelf.initial disk) where
  shows := fun _ _ => rfl
  follows := fun _ => .absent
  copies := fun _ => trivial
  sealed := fun r reading h => by cases h
  owned := fun w job h => by cases h
  distinct := fun w other job job' h => by cases h

variable {targets : Path → Prop} {s : State} {shelf : Shelf} {disk' : Disk Path} {w : ℕ}
  {job : Job} {stage : Stage} {course : Course}

theorem Follows.frame {disk : Disk Path} (hfollows : Follows disk stage course)
    (hfile : ∀ job, stage.job = some job → disk'.file job.tmpPath = disk.file job.tmpPath)
    (hcontent : ∀ job n, stage.job = some job → disk.file job.tmpPath = some n →
      disk'.content n = disk.content n) : Follows disk' stage course := by
  cases hfollows with
  | absent => exact .absent
  | entered hcommand => exact .entered hcommand
  | writing hold hoffset =>
      have hsame := hcontent _ _ rfl hold
      rw [← hsame]
      exact .writing ((hfile _ rfl).trans hold) (by rw [hsame, hoffset])
  | flushed hold =>
      rw [← hcontent _ _ rfl hold]
      exact .flushed ((hfile _ rfl).trans hold)
  | moved hold => exact .moved ((hfile _ rfl).trans hold)
  | ended => exact .ended

theorem Copies.frame {disk : Disk Path} {reader : Option Reading}
    {copy : Option (List UInt8 × List UInt8)} (hcopies : Copies disk reader copy)
    (hcontent : ∀ reading, reader = some reading →
      disk'.content reading.file = disk.content reading.file) : Copies disk' reader copy := by
  cases reader with
  | none =>
      cases copy with
      | none => exact hcopies
      | some copy => exact hcopies
  | some reading =>
      cases copy with
      | none => exact hcopies
      | some copy => exact ⟨(hcontent reading rfl).trans hcopies.1, hcopies.2⟩

/-- A job that a writer may have beside the jobs of the others. -/
structure Fits (targets : Path → Prop) (s : State) (w : ℕ) (job : Job) : Prop where
  target : targets job.path
  distinct : ∀ other job', other ≠ w → (s.writer other).job = some job' →
    job'.drawn ≠ job.drawn

theorem Represents.fits (h : Represents targets s shelf) (hjob : (s.writer w).job = some job) :
    Fits targets s w job :=
  ⟨h.owned w job hjob, fun other job' hother hjob' => h.distinct other w job' job hjob' hjob hother⟩

theorem Fits.tmpPath_ne (hfits : Fits targets s w job) {other : ℕ} {job' : Job}
    (hother : other ≠ w) (hjob' : (s.writer other).job = some job') :
    job'.tmpPath ≠ job.tmpPath := by
  intro heq
  exact hfits.distinct other job' hother hjob' (Job.drawn_of_tmpPath heq)

/-- One writer goes on.  What it does to the disk leaves the files of the others alone. -/
theorem Represents.advance (h : Represents targets s shelf) {content' : Path → Option (List UInt8)}
    (hfollows : Follows disk' stage course)
    (hfits : ∀ job, stage.job = some job → Fits targets s w job)
    (hfile : ∀ other job, other ≠ w → (s.writer other).job = some job →
      disk'.file job.tmpPath = s.disk.file job.tmpPath)
    (hcontent : ∀ other job n, other ≠ w → (s.writer other).job = some job →
      s.disk.file job.tmpPath = some n → disk'.content n = s.disk.content n)
    (hshows : ∀ path, targets path → disk'.read path = content' path)
    (hreaders : ∀ r reading, s.reader r = some reading →
      disk'.content reading.file = s.disk.content reading.file)
    (hsealed : ∀ r reading name, s.reader r = some reading →
      disk'.file name = some reading.file → targets name)
    (hfresh : s.disk.fresh ≤ disk'.fresh) :
    Represents targets { s.setStage w stage with disk := disk' }
      { shelf.setCourse w course with content := content' } := by
  have hself : (s.setStage w stage).writer w = stage := Function.update_self ..
  have hothers : ∀ {other}, other ≠ w → (s.setStage w stage).writer other = s.writer other :=
    fun hother => Function.update_of_ne hother ..
  constructor
  · exact hshows
  · intro other
    by_cases hother : other = w
    · subst hother
      simpa [State.setStage, Shelf.setCourse] using hfollows
    · have hframe := (h.follows other).frame (hfile other · hother) (hcontent other · · hother)
      simpa [State.setStage, Shelf.setCourse, hother] using hframe
  · intro r
    exact (h.copies r).frame (hreaders r ·)
  · intro r reading hreader
    exact ⟨Nat.lt_of_lt_of_le (h.sealed r reading hreader).1 hfresh,
      fun name => hsealed r reading name hreader⟩
  · intro other job hjob
    by_cases hother : other = w
    · subst hother
      exact (hfits job (by rwa [hself] at hjob)).target
    · exact h.owned other job (by rwa [hothers hother] at hjob)
  · intro left right job job' hjob hjob' hne
    by_cases hl : left = w
    · subst hl
      have hr : right ≠ left := hne.symm
      rw [hself] at hjob
      rw [hothers hr] at hjob'
      exact ((hfits job hjob).distinct right job' hr hjob').symm
    · rw [hothers hl] at hjob
      by_cases hr : right = w
      · subst hr
        rw [hself] at hjob'
        exact (hfits job' hjob').distinct left job hl hjob
      · rw [hothers hr] at hjob'
        exact h.distinct left right job job' hjob hjob' hne

/-- A writer goes on, and changes nothing on the disk but the file of its temporary name. -/
theorem Represents.changedAt (hclear : Clear targets) (h : Represents targets s shelf)
    (hchanged : Disk.ChangedAt s.disk disk' job.tmpPath) (hjob : Fits targets s w job)
    (hfollows : Follows disk' stage course)
    (hfits : ∀ job', stage.job = some job' → job' = job) :
    Represents targets { s.setStage w stage with disk := disk' } (shelf.setCourse w course) := by
  refine h.advance hfollows (fun job' hjob' => hfits job' hjob' ▸ hjob) ?_ ?_ ?_ ?_ ?_
    hchanged.fresh
  · exact fun other job' hother hjob' => hchanged.file (hjob.tmpPath_ne hother hjob')
  · intro other job' n hother hjob' hfile
    exact hchanged.content (s.disk.bound hfile) fun hsame =>
      hjob.tmpPath_ne hother hjob' (s.disk.single hfile hsame)
  · intro path hpath
    have hne : path ≠ job.tmpPath := (hclear job path hjob.target hpath).symm
    rw [← h.shows path hpath]
    exact Disk.read_congr (hchanged.file hne) fun n hfile =>
      hchanged.content (s.disk.bound hfile) fun hsame => hne (s.disk.single hfile hsame)
  · intro r reading hreader
    obtain ⟨hbound, hsealed⟩ := h.sealed r reading hreader
    exact hchanged.content hbound fun hsame =>
      hclear job job.tmpPath hjob.target (hsealed _ hsame) rfl
  · intro r reading name hreader hname
    obtain ⟨hbound, hsealed⟩ := h.sealed r reading hreader
    by_cases htmp : name = job.tmpPath
    · subst htmp
      exact hsealed _ (hchanged.old hbound hname)
    · exact hsealed name (by rwa [hchanged.file htmp] at hname)

/-- The stage of a writer, and the course that goes with it. -/
theorem Represents.courseOf (h : Represents targets s shelf) (hstage : s.writer w = stage) :
    ∃ course, shelf.course w = course ∧ Follows s.disk stage course :=
  ⟨_, rfl, hstage ▸ h.follows w⟩

/-- A writer goes on without touching the disk. -/
theorem Represents.goesOn (hclear : Clear targets) (h : Represents targets s shelf)
    (hjob : (s.writer w).job = some job) (hfollows : Follows s.disk stage course)
    (hfits : ∀ job', stage.job = some job' → job' = job) :
    Represents targets (s.setStage w stage) (shelf.setCourse w course) :=
  h.changedAt hclear (.refl _ _) (h.fits hjob) hfollows hfits

/-- A file is created for a job that fits. -/
theorem Represents.createsFile (hclear : Clear targets) (h : Represents targets s shelf)
    (hjob : Fits targets s w job) :
    Represents targets (s.createFile w job)
      (shelf.setCourse w (.writing job.path job.byCommand [])) := by
  refine h.changedAt hclear .create hjob ?_ fun job' hjob' => (Option.some.inj hjob').symm
  have hempty : (s.disk.create job.tmpPath).content (s.disk.number job.tmpPath) = [] :=
    Disk.create_content_self
  have hwriting := @Follows.writing (s.disk.create job.tmpPath) job
    ⟨s.disk.number job.tmpPath, 0, []⟩ Disk.create_file_self (by rw [hempty]; rfl)
  rwa [hempty] at hwriting

theorem Represents.opens (hclear : Clear targets) (h : Represents targets s shelf) {path : Path}
    {number : ℕ} (hproper : Proper targets s (.opens w path number)) :
    Represents targets (s.after (.opens w path number)) (shelf.after (.opens w path number)) := by
  have hfits : Fits targets s w ⟨path, number, false⟩ :=
    ⟨hproper.1, fun other job' _ hjob' => hproper.2 other job' hjob'⟩
  cases hstage : s.writer w <;> obtain ⟨course, hcourse, hfollows⟩ := h.courseOf hstage <;>
    cases hfollows <;> simp only [State.after, hstage, Shelf.after, hcourse]
  case absent => exact h.createsFile hclear hfits
  all_goals exact h

theorem Represents.enters (hclear : Clear targets) (h : Represents targets s shelf) {path : Path}
    {number : ℕ} (hproper : Proper targets s (.enters w path number)) :
    Represents targets (s.after (.enters w path number)) (shelf.after (.enters w path number)) := by
  have hfits : Fits targets s w ⟨path, number, true⟩ :=
    ⟨hproper.1, fun other job' _ hjob' => hproper.2 other job' hjob'⟩
  cases hstage : s.writer w <;> obtain ⟨course, hcourse, hfollows⟩ := h.courseOf hstage <;>
    cases hfollows <;> simp only [State.after, hstage, Shelf.after, hcourse]
  case absent =>
    exact h.changedAt hclear (.refl _ _) hfits (@Follows.entered _ ⟨path, number, true⟩ rfl)
      fun job' hjob' => (Option.some.inj hjob').symm
  all_goals exact h

theorem Represents.creates (hclear : Clear targets) (h : Represents targets s shelf) :
    Represents targets (s.after (.creates w)) (shelf.after (.creates w)) := by
  cases hstage : s.writer w <;> obtain ⟨course, hcourse, hfollows⟩ := h.courseOf hstage <;>
    cases hfollows <;> simp only [State.after, hstage, Shelf.after, hcourse]
  case entered job hcommand =>
    have hcreated := h.createsFile hclear
      (h.fits (by rw [hstage]; rfl : (s.writer w).job = some job))
    rwa [hcommand] at hcreated
  all_goals exact h

theorem Represents.writes (hclear : Clear targets) (h : Represents targets s shelf)
    (data : List UInt8) :
    Represents targets (s.after (.writes w data)) (shelf.after (.writes w data)) := by
  cases hstage : s.writer w <;> obtain ⟨course, hcourse, hfollows⟩ := h.courseOf hstage <;>
    cases hfollows <;> simp only [State.after, hstage, Shelf.after, hcourse]
  case writing job handle hoffset hfile =>
    refine h.goesOn hclear (by rw [hstage]; rfl : (s.writer w).job = some job) ?_
      fun job' hjob' => (Option.some.inj hjob').symm
    rw [List.append_assoc]
    exact @Follows.writing _ _ { handle with buffer := handle.buffer ++ data } hfile hoffset
  all_goals exact h

/-- What a writer has in the file and in the buffer does not change when a part of the buffer is
written out. -/
theorem Follows.spill {disk : Disk Path} {handle : Handle} (count : ℕ)
    (hfile : disk.file job.tmpPath = some handle.file)
    (hoffset : handle.offset = (disk.content handle.file).length) :
    Follows (disk.write handle.file handle.offset (handle.buffer.take count))
      (.writing job { handle with offset := handle.offset + (handle.buffer.take count).length,
                                  buffer := handle.buffer.drop count })
      (.writing job.path job.byCommand (disk.content handle.file ++ handle.buffer)) := by
  have hcontent := @Disk.write_content_end _ disk _ _ (handle.buffer.take count) hoffset
  have hwriting := @Follows.writing
    (disk.write handle.file handle.offset (handle.buffer.take count)) job
    { handle with offset := handle.offset + (handle.buffer.take count).length,
                  buffer := handle.buffer.drop count } hfile
    (by rw [hcontent, List.length_append, hoffset])
  rwa [hcontent, List.append_assoc, List.take_append_drop] at hwriting

theorem Represents.spills (hclear : Clear targets) (h : Represents targets s shelf) (count : ℕ) :
    Represents targets (s.after (.spills w count)) (shelf.after (.spills w count)) := by
  cases hstage : s.writer w <;> obtain ⟨course, hcourse, hfollows⟩ := h.courseOf hstage <;>
    cases hfollows <;> simp only [State.after, hstage, Shelf.after]
  case writing job handle hoffset hfile =>
    have hspilled := h.changedAt hclear (w := w) (.write hfile)
      (h.fits (by rw [hstage]; rfl : (s.writer w).job = some job)) (.spill count hfile hoffset)
      fun job' hjob' => (Option.some.inj hjob').symm
    have hsame : shelf.setCourse w (.writing job.path job.byCommand
        (s.disk.content handle.file ++ handle.buffer)) = shelf := by
      rw [Shelf.setCourse, ← hcourse, Function.update_eq_self]
    rwa [hsame] at hspilled
  all_goals exact h

theorem Represents.finishes (hclear : Clear targets) (h : Represents targets s shelf) :
    Represents targets (s.after (.finishes w)) (shelf.after (.finishes w)) := by
  cases hstage : s.writer w <;> obtain ⟨course, hcourse, hfollows⟩ := h.courseOf hstage <;>
    cases hfollows <;> simp only [State.after, hstage, Shelf.after, hcourse]
  case entered job hcommand =>
    exact h.goesOn hclear (by rw [hstage]; rfl : (s.writer w).job = some job) .ended
      fun job' hjob' => by
      cases hjob'
  case writing job handle hoffset hfile =>
    have hjob := h.fits (by rw [hstage]; rfl : (s.writer w).job = some job)
    have hthere : (s.disk.file job.path).isSome = (shelf.content job.path).isSome := by
      rw [← h.shows job.path hjob.target, Disk.read, Option.isSome_map]
    rw [hthere]
    refine h.changedAt hclear (.write hfile) hjob ?_ ?_
    · split
      · exact .ended
      · have hflushed := @Follows.flushed (s.disk.write handle.file handle.offset handle.buffer)
          job handle.file hfile
        rwa [Disk.write_content_end hoffset] at hflushed
    · intro job' hjob'
      split at hjob'
      · cases hjob'
      · exact (Option.some.inj hjob').symm
  all_goals exact h

theorem Represents.moves (hclear : Clear targets) (h : Represents targets s shelf) :
    Represents targets (s.after (.moves w)) (shelf.after (.moves w)) := by
  cases hstage : s.writer w <;> obtain ⟨course, hcourse, hfollows⟩ := h.courseOf hstage <;>
    cases hfollows <;> simp only [State.after, hstage, Shelf.after, hcourse]
  case flushed job file hfile =>
    have hjob := h.fits (by rw [hstage]; rfl : (s.writer w).job = some job)
    have hne : job.tmpPath ≠ job.path := hclear job job.path hjob.target hjob.target
    refine h.advance (.moved (Disk.rename_file_old hne)) ?_ ?_ ?_ ?_ ?_ ?_ (Nat.le_refl _)
    · intro job' hjob'
      obtain rfl := Option.some.inj hjob'
      exact hjob
    · intro other job' hother hjob'
      exact Disk.rename_file_other (hjob.tmpPath_ne hother hjob')
        (hclear job' job.path (h.owned other job' hjob') hjob.target)
    · exact fun _ _ _ _ _ _ => rfl
    · intro path hpath
      by_cases hsame : path = job.path
      · subst hsame
        rw [Disk.read_eq (Disk.rename_file_new hfile), Function.update_self]
        rfl
      · rw [Function.update_of_ne hsame, ← h.shows path hpath]
        exact Disk.read_congr
          (Disk.rename_file_other (hclear job path hjob.target hpath).symm hsame) fun _ _ => rfl
    · exact fun _ _ _ => rfl
    · intro r reading name hreader hname
      by_cases hpath : name = job.path
      · exact hpath ▸ hjob.target
      by_cases htmp : name = job.tmpPath
      · rw [htmp, Disk.rename_file_old hne] at hname
        cases hname
      · rw [Disk.rename_file_other htmp hpath] at hname
        exact (h.sealed r reading hreader).2 name hname
  all_goals exact h

theorem Represents.drops (hclear : Clear targets) (h : Represents targets s shelf) :
    Represents targets (s.after (.drops w)) (shelf.after (.drops w)) := by
  have hnone : ∀ {job job' : Job}, Stage.job .ended = some job' → job' = job := by
    intro job job' hjob'
    cases hjob'
  cases hstage : s.writer w <;> obtain ⟨course, hcourse, hfollows⟩ := h.courseOf hstage <;>
    cases hfollows <;> simp only [State.after, hstage, Shelf.after, hcourse]
  case entered job hcommand =>
    exact h.goesOn hclear (by rw [hstage]; rfl : (s.writer w).job = some job) .ended fun _ => hnone
  case writing job handle hoffset hfile =>
    have hjob : (s.writer w).job = some job := by rw [hstage]; rfl
    split
    · exact h.goesOn hclear hjob .ended fun _ => hnone
    · exact h.changedAt hclear .remove (h.fits hjob) .ended fun _ => hnone
  case moved job hfile =>
    have hjob : (s.writer w).job = some job := by rw [hstage]; rfl
    have hsame : shelf.setCourse w .ended = shelf := by
      rw [Shelf.setCourse, ← hcourse, Function.update_eq_self]
    rw [← hsame]
    split
    · exact h.goesOn hclear hjob .ended fun _ => hnone
    · exact h.changedAt hclear .remove (h.fits hjob) .ended fun _ => hnone
  all_goals exact h

theorem Represents.dies (hclear : Clear targets) (h : Represents targets s shelf) :
    Represents targets (s.after (.dies w)) (shelf.after (.dies w)) := by
  cases hstage : s.writer w <;> obtain ⟨course, hcourse, hfollows⟩ := h.courseOf hstage <;>
    cases hfollows <;> simp only [State.after, hstage, Shelf.after, hcourse]
  case absent => exact h
  case ended =>
    have hsame : s.setStage w .ended = s := by
      rw [State.setStage, ← hstage, Function.update_eq_self]
    have hsame' : shelf.setCourse w .ended = shelf := by
      rw [Shelf.setCourse, ← hcourse, Function.update_eq_self]
    rwa [hsame, hsame']
  all_goals
    refine h.goesOn hclear (by rw [hstage]; rfl) .ended fun job' hjob' => ?_
    cases hjob'

theorem Represents.removes (hclear : Clear targets) (h : Represents targets s shelf) {path : Path}
    (hpath : targets path) :
    Represents targets (s.after (.removes path)) (shelf.after (.removes path)) := by
  constructor
  · intro other hother
    by_cases hsame : other = path
    · subst hsame
      simp [State.after, Shelf.after, Disk.read]
    · simp only [State.after, Shelf.after, Function.update_of_ne hsame]
      rw [← h.shows other hother]
      exact Disk.read_congr (Disk.remove_file_other hsame) fun _ _ => rfl
  · exact fun w => (h.follows w).frame
      (fun job hjob => Disk.remove_file_other (hclear job path (h.owned w job hjob) hpath))
      fun _ _ _ _ => rfl
  · exact fun r => (h.copies r).frame fun _ _ => rfl
  · exact fun r reading hreader => ⟨(h.sealed r reading hreader).1,
      fun name hname => (h.sealed r reading hreader).2 name (Disk.file_of_remove hname)⟩
  · exact h.owned
  · exact h.distinct

/-- A reader goes on. -/
theorem Represents.setReader (h : Represents targets s shelf) {r : ℕ} {reading : Reading}
    {copy : List UInt8 × List UInt8} (hcopies : Copies s.disk (some reading) (some copy))
    (hsealed : reading.file < s.disk.fresh ∧
      ∀ name, s.disk.file name = some reading.file → targets name) :
    Represents targets (s.setReader r reading) (shelf.setCopy r copy) := by
  refine ⟨h.shows, h.follows, ?_, ?_, h.owned, h.distinct⟩
  · intro other
    by_cases hother : other = r
    · subst hother
      simpa [State.setReader, Shelf.setCopy] using hcopies
    · simpa [State.setReader, Shelf.setCopy, hother] using h.copies other
  · intro other reading' hreader
    by_cases hother : other = r
    · subst hother
      simp only [State.setReader, Function.update_self, Option.some.injEq] at hreader
      exact hreader ▸ hsealed
    · simp only [State.setReader, Function.update_of_ne hother] at hreader
      exact h.sealed other reading' hreader

theorem Represents.openRead (h : Represents targets s shelf) {r : ℕ} {path : Path}
    (hpath : targets path) :
    Represents targets (s.after (.openRead r path)) (shelf.after (.openRead r path)) := by
  have hcopies := h.copies r
  have hshows := h.shows path hpath
  simp only [State.after, Shelf.after]
  cases hreader : s.reader r with
  | some reading =>
      rw [hreader] at hcopies
      cases hcopy : shelf.copy r with
      | none =>
          rw [hcopy] at hcopies
          exact hcopies.elim
      | some copy => exact h
  | none =>
      rw [hreader] at hcopies
      cases hcopy : shelf.copy r with
      | some copy =>
          rw [hcopy] at hcopies
          exact hcopies.elim
      | none =>
          cases hfile : s.disk.file path with
          | none =>
              rw [Disk.read, hfile, Option.map_none] at hshows
              rw [← hshows]
              exact h
          | some file =>
              rw [Disk.read_eq hfile] at hshows
              rw [← hshows]
              exact h.setReader ⟨rfl, rfl⟩
                ⟨s.disk.bound hfile, fun name hname => s.disk.single hfile hname ▸ hpath⟩

theorem Represents.reads (h : Represents targets s shelf) {r : ℕ} (count : ℕ) :
    Represents targets (s.after (.reads r count)) (shelf.after (.reads r count)) := by
  have hcopies := h.copies r
  simp only [State.after, Shelf.after]
  cases hreader : s.reader r with
  | none =>
      rw [hreader] at hcopies
      cases hcopy : shelf.copy r with
      | none => exact h
      | some copy =>
          rw [hcopy] at hcopies
          exact hcopies.elim
  | some reading =>
      rw [hreader] at hcopies
      cases hcopy : shelf.copy r with
      | none =>
          rw [hcopy] at hcopies
          exact hcopies.elim
      | some copy =>
          rw [hcopy] at hcopies
          obtain ⟨hdata, hgot⟩ := hcopies
          exact h.setReader ⟨hdata, by rw [hdata, hgot]⟩ (h.sealed r reading hreader)

/-- Every event does to the shelf what it does to the files. -/
theorem Represents.after (hclear : Clear targets) (h : Represents targets s shelf) {event : Event}
    (hproper : Proper targets s event) :
    Represents targets (s.after event) (shelf.after event) := by
  cases event with
  | opens w path number => exact h.opens hclear hproper
  | enters w path number => exact h.enters hclear hproper
  | creates w => exact h.creates hclear
  | writes w data => exact h.writes hclear data
  | spills w count => exact h.spills hclear count
  | finishes w => exact h.finishes hclear
  | moves w => exact h.moves hclear
  | drops w => exact h.drops hclear
  | dies w => exact h.dies hclear
  | removes path => exact h.removes hclear hproper
  | openRead r path => exact h.openRead hproper
  | reads r count => exact h.reads count

theorem Represents.run (hclear : Clear targets) {events : List Event}
    (h : Represents targets s shelf) (hproper : Along State.after (Proper targets) s events) :
    Represents targets (runAll State.after s events) (runAll Shelf.after shelf events) :=
  runAll_simulates State.after Shelf.after (Proper targets) (Represents targets)
    (fun _ _ _ hrepresents hevent => hrepresents.after hclear hevent) h hproper

/-! ## Numbers that differ -/

/-- The number that an event draws, with the path for which it does. -/
def Event.draws : Event → Option (Path × ℕ)
  | .opens _ path number | .enters _ path number => some (slashlessPath path, number)
  | _ => none

/-- The paths that an event names are targets. -/
def Event.names (targets : Path → Prop) : Event → Prop
  | .opens _ path _ | .enters _ path _ | .removes path | .openRead _ path => targets path
  | _ => True

/-- A job comes from the drawing of its number. -/
theorem State.job_after {event : Event}
    (hjob : ((s.after event).writer w).job = some job) :
    (s.writer w).job = some job ∨ event.draws = some job.drawn := by
  have hset : ∀ {writer : ℕ} {stage : Stage}, ((s.setStage writer stage).writer w).job = some job →
      (∀ job', stage.job = some job' → (s.writer writer).job = some job' ∨
        event.draws = some job'.drawn) →
      (s.writer w).job = some job ∨ event.draws = some job.drawn := by
    intro writer stage hjob hfrom
    by_cases hw : w = writer
    · subst hw
      simp only [State.setStage, Function.update_self] at hjob
      exact hfrom job hjob
    · simp only [State.setStage, Function.update_of_ne hw] at hjob
      exact .inl hjob
  have hkeeps : ∀ {writer : ℕ} {old new : Stage}, s.writer writer = old →
      ((s.setStage writer new).writer w).job = some job →
      (∀ job', new.job = some job' → old.job = some job') →
      (s.writer w).job = some job ∨ event.draws = some job.drawn :=
    fun hold hjob hnew => hset hjob fun job' h => .inl (by rw [hold, hnew job' h])
  cases event with
  | opens writer path number =>
      cases hstage : s.writer writer <;> simp only [State.after, hstage] at hjob
      case absent => exact hset hjob fun job' h => .inr (by obtain rfl := Option.some.inj h; rfl)
      all_goals exact .inl hjob
  | enters writer path number =>
      cases hstage : s.writer writer <;> simp only [State.after, hstage] at hjob
      case absent => exact hset hjob fun job' h => .inr (by obtain rfl := Option.some.inj h; rfl)
      all_goals exact .inl hjob
  | creates writer =>
      cases hstage : s.writer writer <;> simp only [State.after, hstage] at hjob
      case entered => exact hkeeps hstage hjob fun _ h => h
      all_goals exact .inl hjob
  | writes writer data =>
      cases hstage : s.writer writer <;> simp only [State.after, hstage] at hjob
      case writing => exact hkeeps hstage hjob fun _ h => h
      all_goals exact .inl hjob
  | spills writer count =>
      cases hstage : s.writer writer <;> simp only [State.after, hstage] at hjob
      case writing => exact hkeeps hstage hjob fun _ h => h
      all_goals exact .inl hjob
  | finishes writer =>
      cases hstage : s.writer writer <;> simp only [State.after, hstage] at hjob
      case entered => exact hkeeps hstage hjob fun _ h => by cases h
      case writing =>
        refine hkeeps hstage hjob fun _ h => ?_
        split at h
        · cases h
        · exact h
      all_goals exact .inl hjob
  | moves writer =>
      cases hstage : s.writer writer <;> simp only [State.after, hstage] at hjob
      case flushed => exact hkeeps hstage hjob fun _ h => h
      all_goals exact .inl hjob
  | drops writer =>
      have hends : ((s.setStage writer .ended).writer w).job = some job →
          (s.writer w).job = some job ∨ (Event.drops writer).draws = some job.drawn :=
        fun h => hkeeps rfl h fun _ hnone => by cases hnone
      cases hstage : s.writer writer <;> simp only [State.after, hstage] at hjob
      case entered => exact hends hjob
      case writing => split at hjob <;> exact hends hjob
      case moved => split at hjob <;> exact hends hjob
      all_goals exact .inl hjob
  | dies writer =>
      cases hstage : s.writer writer <;> simp only [State.after, hstage] at hjob
      case absent => exact .inl hjob
      all_goals exact hkeeps rfl hjob fun _ h => by cases h
  | removes path => exact .inl hjob
  | openRead r path =>
      simp only [State.after] at hjob
      split at hjob <;> exact .inl hjob
  | reads r count =>
      simp only [State.after] at hjob
      split at hjob <;> exact .inl hjob

/-- It is enough that no number is drawn twice for a path. -/
theorem proper_of_nodup {events : List Event} (hnodup : (events.filterMap Event.draws).Nodup)
    (hnames : ∀ event ∈ events, event.names targets)
    (hfresh : ∀ w job, (s.writer w).job = some job →
      job.drawn ∉ events.filterMap Event.draws) :
    Along State.after (Proper targets) s events := by
  induction events generalizing s with
  | nil => trivial
  | cons event rest ih =>
      obtain ⟨hname, hrest⟩ := List.forall_mem_cons.mp hnames
      cases hdraws : event.draws with
      | none =>
          rw [List.filterMap_cons_none hdraws] at hnodup hfresh
          refine ⟨?_, ih hnodup hrest fun w job hjob => ?_⟩
          · cases event <;> first | exact hname | cases hdraws
          · obtain hbefore | hdrawn := State.job_after hjob
            · exact hfresh w job hbefore
            · rw [hdraws] at hdrawn
              cases hdrawn
      | some drawn =>
          rw [List.filterMap_cons_some hdraws] at hnodup hfresh
          obtain ⟨hnew, hnodup⟩ := List.nodup_cons.mp hnodup
          refine ⟨?_, ih hnodup hrest fun w job hjob => ?_⟩
          · have hother : ∀ other job, (s.writer other).job = some job →
                job.drawn ≠ drawn := fun other job hjob heq =>
              hfresh other job hjob (heq ▸ List.mem_cons_self)
            cases event <;> first | cases hdraws; exact ⟨hname, hother⟩ | cases hdraws
          · obtain hbefore | hdrawn := State.job_after hjob
            · exact fun hmem => hfresh w job hbefore (List.mem_cons_of_mem _ hmem)
            · rw [hdraws, Option.some.injEq] at hdrawn
              exact hdrawn ▸ hnew

/-- The temporary names of a target without a slash at its end are longer than the target. -/
theorem clear_singleton {path : Path} (hpath : trailingSlash path = []) : Clear (· = path) := by
  rintro job other htarget rfl heq
  obtain ⟨width, hname, -⟩ := job.tmpPath_eq
  have hstem : job.stem = other := by
    unfold Job.stem
    rw [htarget, slashlessPath_of_trailingSlash hpath, ite_self]
  have hlength := congrArg List.length (hname.symm.trans heq)
  rw [hstem, List.length_append, List.length_append, List.length_append] at hlength
  have hmark : 0 < tmpMark.length := by decide
  omega

/-- In every run the targets show what is on the shelf, and the readers have seen what they have
seen of their copies. -/
theorem files_stand_for_shelf (hclear : Clear targets) {disk : Disk Path} {events : List Event}
    (hproper : Along State.after (Proper targets) (State.initial disk) events) :
    (∀ path, targets path → (runAll State.after (State.initial disk) events).disk.read path =
      (runAll Shelf.after (Shelf.initial disk) events).content path) ∧
    ∀ r, ((runAll State.after (State.initial disk) events).reader r).map Reading.got =
      ((runAll Shelf.after (Shelf.initial disk) events).copy r).map Prod.snd := by
  have hrun := (represents_initial targets disk).run hclear hproper
  refine ⟨hrun.shows, fun r => ?_⟩
  have hcopies := hrun.copies r
  cases hreader : (runAll State.after (State.initial disk) events).reader r <;>
    cases hcopy : (runAll Shelf.after (Shelf.initial disk) events).copy r <;>
    rw [hreader, hcopy] at hcopies
  · rfl
  · exact hcopies.elim
  · exact hcopies.elim
  · exact congrArg some hcopies.2

/-- No file is there. -/
def emptyDisk : Disk Path where
  file := fun _ => none
  content := fun _ => []
  fresh := 0
  bound := fun h => by cases h
  single := fun h => by cases h

/-- A step and a command write the same target, and a reader opens it between their renames. -/
def sharedTarget : List Event :=
  [.opens 0 ['o'] 1, .enters 1 ['o'] 2, .creates 1, .writes 0 [1, 2], .spills 0 1, .writes 1 [3],
    .finishes 1, .finishes 0, .moves 0, .openRead 0 ['o'], .reads 0 1, .moves 1, .drops 0,
    .drops 1, .reads 0 5]

theorem sharedTarget_proper :
    Along State.after (Proper (· = ['o'])) (State.initial emptyDisk) sharedTarget := by
  refine proper_of_nodup (by decide) ?_ fun w job hjob => by cases hjob
  simp [sharedTarget, Event.names]

theorem files_stand_for_shelf_sharedTarget :
    (runAll State.after (State.initial emptyDisk) sharedTarget).disk.read ['o'] =
      (runAll Shelf.after (Shelf.initial emptyDisk) sharedTarget).content ['o'] :=
  (files_stand_for_shelf (clear_singleton rfl) sharedTarget_proper).1 _ rfl

/-! ## What was written -/

/-- The bytes of an event that a writer writes. -/
def dataOf (w : ℕ) : Event → List UInt8
  | .writes writer data => if writer = w then data else []
  | _ => []

/-- The event with which a writer of the path begins, after the events before it. -/
def Begins (w : ℕ) (path : Path) (past : List Event) : Event → Prop
  | .opens writer path' _ => writer = w ∧ path' = path
  | .creates writer => writer = w ∧ ∃ number, .enters w path number ∈ past
  | _ => False

/-- All that the writer has written since it began. -/
def Wrote (w : ℕ) (path : Path) (events : List Event) (data : List UInt8) : Prop :=
  ∃ front first middle, events = front ++ first :: middle ∧ Begins w path front first ∧
    data = middle.flatMap (dataOf w)

/-- All that a writer wrote up to the end of its block, and it has renamed its file since. -/
def WroteWhole (path : Path) (events : List Event) (data : List UInt8) : Prop :=
  ∃ w front back, events = front ++ .finishes w :: back ∧ .moves w ∈ back ∧ Wrote w path front data

/-- What the events tell about the course of a writer. -/
def Told (w : ℕ) (events : List Event) : Course → Prop
  | .entered path => ∃ number, .enters w path number ∈ events
  | .writing path _ data => Wrote w path events data
  | .final path data =>
      ∃ front back, events = front ++ .finishes w :: back ∧ Wrote w path front data
  | .absent | .ended => True

variable {past : List Event} {event : Event} {path : Path} {data : List UInt8}

theorem Wrote.snoc (h : Wrote w path past data) (event : Event) :
    Wrote w path (past ++ [event]) (data ++ dataOf w event) := by
  obtain ⟨front, first, middle, rfl, hbegins, rfl⟩ := h
  exact ⟨front, first, middle ++ [event], by simp, hbegins, by simp⟩

theorem Told.snoc (h : Told w past course) (hevent : dataOf w event = []) :
    Told w (past ++ [event]) course := by
  cases course with
  | absent => trivial
  | ended => trivial
  | entered path =>
      obtain ⟨number, hmem⟩ := h
      exact ⟨number, List.mem_append_left _ hmem⟩
  | writing path byCommand data =>
      have hwrote := Wrote.snoc h event
      rwa [hevent, List.append_nil] at hwrote
  | final path data =>
      obtain ⟨front, back, rfl, hwrote⟩ := h
      exact ⟨front, back ++ [event], by simp, hwrote⟩

def Event.writer : Event → Option ℕ
  | .opens w _ _ | .enters w _ _ | .creates w | .writes w _ | .spills w _ | .finishes w
  | .moves w | .drops w | .dies w => some w
  | .removes _ | .openRead _ _ | .reads _ _ => none

theorem Shelf.course_after_other (hother : event.writer ≠ some w) :
    (shelf.after event).course w = shelf.course w := by
  have hset : ∀ {writer : ℕ} {course : Course}, some writer ≠ some w →
      (shelf.setCourse writer course).course w = shelf.course w :=
    fun h => Function.update_of_ne (fun heq => h (congrArg some heq.symm)) ..
  cases event <;> simp only [Event.writer] at hother <;> simp only [Shelf.after] <;> try split
  all_goals first | rfl | exact hset hother

theorem dataOf_other (hother : event.writer ≠ some w) : dataOf w event = [] := by
  cases event with
  | writes writer data =>
      rw [dataOf, if_neg]
      rintro rfl
      exact hother rfl
  | _ => rfl

/-- A writer that begins has written nothing. -/
theorem Wrote.start (hbegins : Begins w path past event) : Wrote w path (past ++ [event]) [] :=
  ⟨past, event, [], rfl, hbegins, rfl⟩

theorem Told.after (h : Told w past (shelf.course w)) (event : Event) :
    Told w (past ++ [event]) ((shelf.after event).course w) := by
  by_cases hsame : event.writer = some w
  swap
  · rw [Shelf.course_after_other hsame]
    exact h.snoc (dataOf_other hsame)
  have hset : ∀ {course}, (shelf.setCourse w course).course w = course := Function.update_self ..
  cases hcourse : shelf.course w with
  | absent =>
      cases event <;> simp only [Event.writer, Option.some.injEq, reduceCtorEq] at hsame <;>
        subst hsame <;> simp only [Shelf.after, hcourse, hset]
      case opens => exact Wrote.start ⟨rfl, rfl⟩
      case enters number => exact ⟨number, List.mem_append_right _ (List.mem_singleton_self _)⟩
      all_goals trivial
  | entered path =>
      rw [hcourse] at h
      cases event <;> simp only [Event.writer, Option.some.injEq, reduceCtorEq] at hsame <;>
        subst hsame <;> simp only [Shelf.after, hcourse, hset]
      case creates => exact Wrote.start ⟨rfl, h⟩
      all_goals first | trivial | exact h.imp fun _ hmem => List.mem_append_left _ hmem
  | writing path byCommand data =>
      rw [hcourse] at h
      cases event <;> simp only [Event.writer, Option.some.injEq, reduceCtorEq] at hsame <;>
        subst hsame <;> simp only [Shelf.after, hcourse, hset]
      case writes writer more =>
        have hwrote := Wrote.snoc h (.writes writer more)
        rwa [dataOf, if_pos rfl] at hwrote
      case finishes =>
        split
        · trivial
        · exact ⟨past, [], rfl, h⟩
      all_goals first | trivial | exact h.snoc rfl
  | final path data =>
      rw [hcourse] at h
      obtain ⟨front, back, rfl, hwrote⟩ := h
      have hkept : Told w (front ++ .finishes w :: back ++ [event]) (.final path data) :=
        ⟨front, back ++ [event], by simp, hwrote⟩
      cases event <;> simp only [Event.writer, Option.some.injEq, reduceCtorEq] at hsame <;>
        subst hsame <;> simp only [Shelf.after, hcourse, hset]
      all_goals first | exact hkept | trivial
  | ended =>
      cases event <;> simp only [Event.writer, Option.some.injEq, reduceCtorEq] at hsame <;>
        subst hsame <;> simp only [Shelf.after, hcourse, hset]
      all_goals trivial

/-- What a run tells about the shelf. -/
structure Recounts (first : Path → Option (List UInt8)) (past : List Event) (shelf : Shelf) :
    Prop where
  told : ∀ w, Told w past (shelf.course w)
  whole : ∀ path data, shelf.content path = some data →
    first path = some data ∨ WroteWhole path past data

theorem WroteWhole.snoc (h : WroteWhole path past data) (event : Event) :
    WroteWhole path (past ++ [event]) data := by
  obtain ⟨w, front, back, rfl, hmoved, hwrote⟩ := h
  exact ⟨w, front, back ++ [event], by simp, List.mem_append_left _ hmoved, hwrote⟩

theorem Recounts.after {first : Path → Option (List UInt8)} (h : Recounts first past shelf)
    (event : Event) : Recounts first (past ++ [event]) (shelf.after event) := by
  refine ⟨fun w => (h.told w).after event, fun path data hdata => ?_⟩
  have hkept : shelf.content path = some data →
      first path = some data ∨ WroteWhole path (past ++ [event]) data := fun hbefore =>
    (h.whole path data hbefore).imp_right (·.snoc event)
  cases event with
  | moves w =>
      have htold := h.told w
      cases hcourse : shelf.course w <;> simp only [Shelf.after, hcourse] at hdata htold
      case final target whole =>
        by_cases hpath : path = target
        · subst hpath
          rw [Function.update_self, Option.some.injEq] at hdata
          subst hdata
          obtain ⟨front, back, rfl, hwrote⟩ := htold
          exact .inr ⟨w, front, back ++ [.moves w], by simp,
            List.mem_append_right _ (List.mem_singleton_self _), hwrote⟩
        · rw [Function.update_of_ne hpath] at hdata
          exact hkept hdata
      all_goals exact hkept hdata
  | removes target =>
      by_cases hpath : path = target
      · subst hpath
        simp [Shelf.after] at hdata
      · simp only [Shelf.after, Function.update_of_ne hpath] at hdata
        exact hkept hdata
  | spills w count => exact hkept hdata
  | openRead r target =>
      apply hkept
      simp only [Shelf.after] at hdata
      split at hdata <;> exact hdata
  | reads r count =>
      apply hkept
      simp only [Shelf.after] at hdata
      split at hdata <;> exact hdata
  | _ =>
      apply hkept
      simp only [Shelf.after] at hdata
      split at hdata <;> exact hdata

theorem recounts_run (disk : Disk Path) (events : List Event) :
    Recounts disk.read events (runAll Shelf.after (Shelf.initial disk) events) := by
  have hstart : Recounts disk.read [] (Shelf.initial disk) :=
    ⟨fun _ => trivial, fun _ _ h => .inl h⟩
  exact runAll_history Shelf.after (Recounts disk.read) (fun _ _ event h => h.after event)
    hstart events

/-- Whatever the writers, the readers and the processes that end do, and in whatever order: what
is found at a target was there at the beginning, or is all that one writer of the target wrote from
its opening to the end of its block. -/
theorem published_whole (hclear : Clear targets) {disk : Disk Path} {events : List Event}
    (hproper : Along State.after (Proper targets) (State.initial disk) events)
    (hpath : targets path)
    (hdata : (runAll State.after (State.initial disk) events).disk.read path = some data) :
    disk.read path = some data ∨ WroteWhole path events data := by
  have hrepresents := (represents_initial targets disk).run hclear hproper
  rw [hrepresents.shows path hpath] at hdata
  exact (recounts_run disk events).whole path data hdata

theorem published_whole_sharedTarget :
    emptyDisk.read ['o'] = some [3] ∨ WroteWhole ['o'] sharedTarget [3] :=
  published_whole (clear_singleton rfl) sharedTarget_proper rfl (by decide +kernel)

/-- What a reader took is what was there when it opened the target. -/
def TookWhole (disk : Disk Path) (past : List Event) (shelf : Shelf) : Prop :=
  shelf = runAll Shelf.after (Shelf.initial disk) past ∧
    ∀ r data got, shelf.copy r = some (data, got) → got <+: data ∧
      ∃ path front back, past = front ++ .openRead r path :: back ∧
        (runAll Shelf.after (Shelf.initial disk) front).content path = some data

theorem TookWhole.after {disk : Disk Path} (h : TookWhole disk past shelf) (event : Event) :
    TookWhole disk (past ++ [event]) (shelf.after event) := by
  obtain ⟨hrun, htook⟩ := h
  refine ⟨by rw [runAll_append, ← hrun]; rfl, fun r data got hcopy => ?_⟩
  have hkept : ∀ {data got}, shelf.copy r = some (data, got) → got <+: data ∧
      ∃ path front back, past ++ [event] = front ++ .openRead r path :: back ∧
        (runAll Shelf.after (Shelf.initial disk) front).content path = some data := by
    intro data got hbefore
    obtain ⟨hbegins, path, front, back, rfl, hcontent⟩ := htook r data got hbefore
    exact ⟨hbegins, path, front, back ++ [event], by simp, hcontent⟩
  cases event with
  | openRead reader path =>
      cases hbefore : shelf.copy reader <;> cases hcontent : shelf.content path <;>
        simp only [Shelf.after, hbefore, hcontent] at hcopy
      case none.some whole =>
        by_cases hr : r = reader
        · subst hr
          simp only [Shelf.setCopy, Function.update_self, Option.some.injEq,
            Prod.mk.injEq] at hcopy
          obtain ⟨rfl, rfl⟩ := hcopy
          exact ⟨List.nil_prefix, path, past, [], rfl, by rw [← hrun, hcontent]⟩
        · simp only [Shelf.setCopy, Function.update_of_ne hr] at hcopy
          exact hkept hcopy
      all_goals exact hkept hcopy
  | reads reader count =>
      cases hbefore : shelf.copy reader with
      | none =>
          simp only [Shelf.after, hbefore] at hcopy
          exact hkept hcopy
      | some copy =>
          obtain ⟨whole, seen⟩ := copy
          simp only [Shelf.after, hbefore] at hcopy
          by_cases hr : r = reader
          · subst hr
            simp only [Shelf.setCopy, Function.update_self, Option.some.injEq,
              Prod.mk.injEq] at hcopy
            obtain ⟨rfl, rfl⟩ := hcopy
            obtain ⟨⟨rest, rfl⟩, htaken⟩ := hkept hbefore
            refine ⟨?_, htaken⟩
            rw [List.drop_left]
            exact (List.prefix_append_right_inj _).mpr (List.take_prefix _ _)
          · simp only [Shelf.setCopy, Function.update_of_ne hr] at hcopy
            exact hkept hcopy
  | spills w count => exact hkept hcopy
  | removes path => exact hkept hcopy
  | _ =>
      apply hkept
      simp only [Shelf.after] at hcopy
      split at hcopy <;> exact hcopy

/-- A reader sees a part from the beginning of one content of the target, the one that was there
when it opened the target, whatever is put there while it reads. -/
theorem reader_sees_one_content (hclear : Clear targets) {disk : Disk Path} {events : List Event}
    (hproper : Along State.after (Proper targets) (State.initial disk) events) {r : ℕ}
    {reading : Reading}
    (hreading : (runAll State.after (State.initial disk) events).reader r = some reading) :
    ∃ path front back data, events = front ++ .openRead r path :: back ∧
      (runAll State.after (State.initial disk) front).disk.read path = some data ∧
      reading.got <+: data := by
  have hrepresents := (represents_initial targets disk).run hclear hproper
  have hcopies := hrepresents.copies r
  rw [hreading] at hcopies
  have hstart : TookWhole disk [] (Shelf.initial disk) := ⟨rfl, fun _ _ _ h => by cases h⟩
  obtain ⟨-, htook⟩ := runAll_history Shelf.after (TookWhole disk)
    (fun _ _ event h => h.after event) hstart events
  cases hcopy : (runAll Shelf.after (Shelf.initial disk) events).copy r with
  | none =>
      rw [hcopy] at hcopies
      exact hcopies.elim
  | some copy =>
      rw [hcopy] at hcopies
      obtain ⟨hbegins, path, front, back, rfl, hcontent⟩ := htook r copy.1 copy.2 hcopy
      obtain ⟨hfront, hpath, -⟩ := (along_append _ _).mp hproper
      refine ⟨path, front, back, copy.1, rfl, ?_, hcopies.2 ▸ hbegins⟩
      rw [((represents_initial targets disk).run hclear hfront).shows path hpath, hcontent]

theorem reader_sees_one_content_sharedTarget : ∃ path front back data,
    sharedTarget = front ++ .openRead 0 path :: back ∧
      (runAll State.after (State.initial emptyDisk) front).disk.read path = some data ∧
      [1, 2] <+: data :=
  @reader_sees_one_content (· = ['o']) (clear_singleton rfl) emptyDisk sharedTarget
    sharedTarget_proper 0 ⟨0, [1, 2]⟩ (by decide +kernel)

end Trun.Target
