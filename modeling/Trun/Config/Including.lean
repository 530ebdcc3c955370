import Mathlib.Data.Set.Finite.Basic
import Mathlib.Data.Set.Finite.Lattice
import Mathlib.Order.Interval.Finset.Nat
import Mathlib.Order.Interval.Set.Infinite
import Mathlib.Order.WellFounded
import Trun.Config.Loading

/-!
# Circular includes

A file is where a path leads, a path is a text.  Files that include each other in a circle are
found out when the texts of the paths repeat.  They do not repeat while directories pile up, and
then the paths grow too long.
-/

namespace Trun.Config

open Relation

universe u

variable {Dir : Type u} [DecidableEq Dir] {fs : FileSystem Dir}

namespace FileSystem

def includesOf (fs : FileSystem Dir) (place : Dir × String) : List Path :=
  match fs.files.get? place with
  | some (.config config) => (relativePaths ((includeTable config).getD [])).map Prod.snd
  | _ => []

omit [DecidableEq Dir] in
/-- Where an include of a file in the directory leads. -/
def target (fs : FileSystem Dir) (dir : Dir) (relative : Path) : Option (Dir × String) :=
  (fs.enterAll (if relative.absolute then fs.root else dir) relative.directories).map
    fun dir => (dir, relative.filename)

def Includes (fs : FileSystem Dir) (place other : Dir × String) : Prop :=
  ∃ path ∈ fs.includesOf place, fs.target place.1 path = some other

/-- The files that can be reached from the start include each other in a circle. -/
def Cyclic (fs : FileSystem Dir) (start : Path) : Prop :=
  ∃ place other, fs.locate start = some place ∧ ReflTransGen fs.Includes place other ∧
    TransGen fs.Includes other other

end FileSystem

/-- Loading ends, with an error if there is a circle of includes, and with none about a circular
include otherwise. -/
def LoadsProperly (fs : FileSystem Dir) (orders : Path → HashOrder (String × Path))
    (start : Path) : Prop :=
  ∃ fuel outcome, load fs orders fuel start = some outcome ∧
    (fs.Cyclic start → ∃ error, outcome = .error error) ∧
    (¬fs.Cyclic start → ∀ error, outcome = .error error → error.isCircular = false)

variable {orders : Path → HashOrder (String × Path)} {start path : Path}
  {place other : Dir × String}

/-- Where no chain is endless there is no cycle. -/
theorem not_cycle_of_acc {α : Type*} {step : α → α → Prop} {a b : α} (hacc : Acc (flip step) a)
    (hreach : ReflTransGen step a b) : ¬TransGen step b b := by
  have hb : Acc (flip step) b := by
    induction hreach with
    | refl => exact hacc
    | tail _ hstep ih => exact ih.inv hstep
  clear hreach
  induction hb with
  | intro b _ ih =>
      intro hcycle
      obtain ⟨c, hstep, hback⟩ := TransGen.head'_iff.mp hcycle
      exact ih c hstep (TransGen.tail' hback hstep)

/-! ## Paths and files -/

omit [DecidableEq Dir] in
theorem enterAll_append (fs : FileSystem Dir) (dir : Dir) (front back : List String) :
    fs.enterAll dir (front ++ back) = (fs.enterAll dir front).bind (fs.enterAll · back) := by
  unfold FileSystem.enterAll
  exact List.foldlM_append

/-- The path that `load_config_file` makes for an include. -/
def Path.include (path relative : Path) : Path := path.removeFilename.append relative

theorem Path.include_of_absolute {relative : Path} (habsolute : relative.absolute = true) :
    path.include relative = relative := by
  unfold Path.include Path.append
  rw [if_pos habsolute]

theorem Path.include_of_relative {relative : Path} (habsolute : relative.absolute = false) :
    path.include relative = ⟨path.absolute, path.directories ++ relative.directories,
      relative.filename⟩ := by
  unfold Path.include Path.append Path.removeFilename
  simp [habsolute]

omit [DecidableEq Dir] in
/-- The include leads to where the file's directory says. -/
theorem locate_include (hlocate : fs.locate path = some place) (relative : Path) :
    fs.locate (path.include relative) = fs.target place.1 relative := by
  obtain ⟨dir, hdir, rfl⟩ := Option.map_eq_some_iff.mp hlocate
  unfold FileSystem.locate FileSystem.target FileSystem.directory
  cases habsolute : relative.absolute with
  | true =>
      rw [Path.include_of_absolute habsolute]
      simp [habsolute]
  | false =>
      rw [Path.include_of_relative habsolute, enterAll_append]
      dsimp only
      rw [show fs.enterAll _ path.directories = some dir from hdir, Option.bind_some]
      rfl

theorem get?_of_loadTomlFile {config : Table} (hload : loadTomlFile fs path = .ok config) :
    fs.tooLong path = false ∧
      ∃ place, fs.locate path = some place ∧ fs.files.get? place = some (.config config) := by
  unfold loadTomlFile at hload
  split at hload
  · cases hload
  split at hload
  · cases hload
  · rename_i hshort
    refine ⟨Bool.eq_false_iff.mpr hshort, ?_⟩
    split at hload
    any_goals cases hload
    next hfind =>
      obtain ⟨place, hplace, hentry⟩ := Option.bind_eq_some_iff.mp hfind
      refine ⟨place, hplace, ?_⟩
      split at hentry
      next hget => rw [hget, hentry]
      next =>
        split at hentry <;> cases hentry

theorem loadTomlFile_of_get? {config : Table} (hlocate : fs.locate path = some place)
    (hget : fs.files.get? place = some (.config config)) :
    loadTomlFile fs path = if fs.tooLong path then .error (.tooLong path) else .ok config := by
  obtain ⟨dir, hdir, rfl⟩ := Option.map_eq_some_iff.mp hlocate
  have hnamed : path.filename ≠ "" :=
    fs.named _ ((fs.files.mem_keys_iff _).mpr ⟨_, hget⟩)
  have hfind : fs.find path = some (.config config) := by
    unfold FileSystem.find
    rw [hlocate, Option.bind_some, hget]
  unfold loadTomlFile
  rw [if_neg (by simp [Path.isEmpty, hnamed]), hfind]

theorem eq_of_loadTomlFile {config found : Table} (hlocate : fs.locate path = some place)
    (hget : fs.files.get? place = some (.config config))
    (hload : loadTomlFile fs path = .ok found) : found = config := by
  obtain ⟨-, other, hother, hfound⟩ := get?_of_loadTomlFile hload
  rw [hlocate] at hother
  cases hother
  rw [hget] at hfound
  cases hfound
  rfl

/-- The entries of `file_paths_dict` are the includes of the file, joined to its path. -/
theorem exists_mem_filePathsDict (path : Path) {config includes : Table}
    (hget : fs.files.get? place = some (.config config))
    (hincludes : includeTable config = some includes) (filePath : Path) :
    (∃ name, (name, filePath) ∈ filePathsDict path includes) ↔
      ∃ relative ∈ fs.includesOf place, filePath = path.include relative := by
  unfold FileSystem.includesOf filePathsDict
  rw [hget]
  dsimp only
  rw [hincludes, Option.getD_some]
  constructor
  · rintro ⟨name, hmem⟩
    obtain ⟨⟨key, relative⟩, hrelative, heq⟩ := List.mem_map.mp hmem
    cases heq
    exact ⟨relative, List.mem_map.mpr ⟨_, hrelative, rfl⟩, rfl⟩
  · rintro ⟨relative, hmem, rfl⟩
    obtain ⟨⟨key, relative⟩, hrelative, rfl⟩ := List.mem_map.mp hmem
    exact ⟨key, List.mem_map.mpr ⟨_, hrelative, rfl⟩⟩

theorem exists_config_of_mem_includesOf {relative : Path} (hmem : relative ∈ fs.includesOf place) :
    ∃ config includes, fs.files.get? place = some (.config config) ∧
      includeTable config = some includes := by
  unfold FileSystem.includesOf at hmem
  split at hmem
  next config hget =>
    cases hincludes : includeTable config with
    | none =>
        rw [hincludes] at hmem
        cases hmem
    | some includes => exact ⟨config, includes, hget, hincludes⟩
  next => cases hmem

theorem isCircular_loadTomlFile {error : LoadError} (hload : loadTomlFile fs path = .error error) :
    error.isCircular = false := by
  unfold loadTomlFile at hload
  split at hload
  · cases hload
    rfl
  split at hload
  · cases hload
    rfl
  · split at hload
    all_goals cases hload
    all_goals rfl

/-! ## The outcomes of a call -/

/-- How a call of `load_config_file` ends. -/
inductive Outcome (fs : FileSystem Dir) (orders : Path → HashOrder (String × Path)) (fuel : ℕ)
    (path : Path) (included : List Path) (includeChain : String) :
    Except LoadError (Table × List Path) → Prop
  | circular : path ∈ included →
      Outcome fs orders fuel path included includeChain
        (.error (.processing (.circular path includeChain)))
  | unloaded (error : LoadError) : path ∉ included → loadTomlFile fs path = .error error →
      Outcome fs orders fuel path included includeChain (.error (.processing error))
  | empty : path ∉ included → loadTomlFile fs path = .ok [] →
      Outcome fs orders fuel path included includeChain (.error (.processing (.empty path)))
  | plain (config : Table) : path ∉ included → loadTomlFile fs path = .ok config →
      config ≠ [] → includeTable config = none →
      Outcome fs orders fuel path included includeChain (.ok (config, included))
  | failed (config includes : Table) (error : LoadError) : path ∉ included →
      loadTomlFile fs path = .ok config → includeTable config = some includes →
      processIncludedFiles (loadConfigFile fs orders fuel) includeChain
        ((orders path).arrange (filePathsDict path includes)) config (path :: included) =
          some (.error error) →
      Outcome fs orders fuel path included includeChain (.error (.processing error))
  | merged (config includes merged : Table) (after : List Path) : path ∉ included →
      loadTomlFile fs path = .ok config → includeTable config = some includes →
      processIncludedFiles (loadConfigFile fs orders fuel) includeChain
        ((orders path).arrange (filePathsDict path includes)) config (path :: included) =
          some (.ok (merged, after)) →
      Outcome fs orders fuel path included includeChain (.ok (merged, after.erase path))

theorem loadConfigFile_includes {config includes : Table} {included : List Path} (fuel : ℕ)
    (includeChain : String) (hnew : path ∉ included) (hload : loadTomlFile fs path = .ok config)
    (hincludes : includeTable config = some includes) :
    loadConfigFile fs orders (fuel + 1) path included includeChain =
      match processIncludedFiles (loadConfigFile fs orders fuel) includeChain
          ((orders path).arrange (filePathsDict path includes)) config (path :: included) with
      | none => none
      | some (.error error) => some (.error (.processing error))
      | some (.ok (merged, included)) => some (.ok (merged, included.erase path)) := by
  cases config with
  | nil => cases hincludes
  | cons entry rest =>
      rw [loadConfigFile, if_neg hnew, hload]
      dsimp only
      generalize includeTable (entry :: rest) = found at hincludes ⊢
      subst hincludes
      rfl

theorem outcome_of_loadConfigFile {fuel : ℕ} {included : List Path} {includeChain : String}
    {outcome : Except LoadError (Table × List Path)}
    (hload : loadConfigFile fs orders (fuel + 1) path included includeChain = some outcome) :
    Outcome fs orders fuel path included includeChain outcome := by
  by_cases hmem : path ∈ included
  · rw [loadConfigFile, if_pos hmem] at hload
    cases hload
    exact .circular hmem
  cases hfile : loadTomlFile fs path with
  | error error =>
      rw [loadConfigFile, if_neg hmem, hfile] at hload
      cases hload
      exact .unloaded error hmem hfile
  | ok config =>
      cases hincludes : includeTable config with
      | none =>
          rw [loadConfigFile, if_neg hmem, hfile] at hload
          cases config with
          | nil =>
              cases hload
              exact .empty hmem hfile
          | cons entry rest =>
              dsimp only at hload
              rw [hincludes, List.erase_cons_head] at hload
              cases hload
              exact .plain _ hmem hfile (List.cons_ne_nil _ _) hincludes
      | some includes =>
          rw [loadConfigFile_includes fuel includeChain hmem hfile hincludes] at hload
          split at hload
          next => cases hload
          next error herror =>
            cases hload
            exact .failed config includes error hmem hfile hincludes herror
          next merged after hok =>
            cases hload
            exact .merged config includes merged after hmem hfile hincludes hok

/-! ## The includes of one file -/

/-- A call that succeeds leaves `included_files` as it was. -/
def Restores (load : Path → List Path → String → Loaded) : Prop :=
  ∀ path included includeChain data after,
    load path included includeChain = some (.ok (data, after)) → after = included

section Included

variable {load : Path → List Path → String → Loaded} {includeChain : String} {included : List Path}
  {entries : List (String × Path)} {config : Table}

theorem processIncludedFiles_ok (hrestores : Restores load) {merged : Table} {after : List Path}
    (hprocess : processIncludedFiles load includeChain entries config included =
      some (.ok (merged, after))) :
    after = included ∧ ∀ entry ∈ entries, ∃ includeChain data,
      load entry.2 included includeChain = some (.ok (data, included)) := by
  induction entries generalizing config with
  | nil =>
      rw [processIncludedFiles] at hprocess
      cases hprocess
      exact ⟨rfl, nofun⟩
  | cons entry rest ih =>
      obtain ⟨name, filePath⟩ := entry
      rw [processIncludedFiles] at hprocess
      split at hprocess
      next => cases hprocess
      next => cases hprocess
      next data between hload =>
        obtain rfl := hrestores _ _ _ _ _ hload
        obtain ⟨hafter, hrest⟩ := ih hprocess
        exact ⟨hafter, List.forall_mem_cons.mpr ⟨⟨_, data, hload⟩, hrest⟩⟩

theorem processIncludedFiles_error (hrestores : Restores load) {error : LoadError}
    (hprocess : processIncludedFiles load includeChain entries config included =
      some (.error error)) :
    ∃ entry ∈ entries, ∃ includeChain,
      load entry.2 included includeChain = some (.error error) := by
  induction entries generalizing config with
  | nil =>
      rw [processIncludedFiles] at hprocess
      cases hprocess
  | cons entry rest ih =>
      obtain ⟨name, filePath⟩ := entry
      rw [processIncludedFiles] at hprocess
      split at hprocess
      next => cases hprocess
      next found hload =>
        cases hprocess
        exact ⟨_, List.mem_cons_self, _, hload⟩
      next data between hload =>
        obtain rfl := hrestores _ _ _ _ _ hload
        obtain ⟨entry, hmem, hentry⟩ := ih hprocess
        exact ⟨entry, List.mem_cons_of_mem _ hmem, hentry⟩

theorem processIncludedFiles_isSome (includeChain : String) (config : Table)
    (hrestores : Restores load)
    (hload : ∀ entry ∈ entries, ∀ includeChain, (load entry.2 included includeChain).isSome) :
    (processIncludedFiles load includeChain entries config included).isSome := by
  induction entries generalizing config with
  | nil => rfl
  | cons entry rest ih =>
      obtain ⟨name, filePath⟩ := entry
      obtain ⟨hfirst, hrest⟩ := List.forall_mem_cons.mp hload
      rw [processIncludedFiles]
      split
      next hnone =>
        have hsome := hfirst (includeChain ++ " -> " ++ filePath.toString)
        rw [hnone] at hsome
        cases hsome
      next => rfl
      next data between hdata =>
        obtain rfl := hrestores _ _ _ _ _ hdata
        exact ih _ hrest

/-- More fuel changes no outcome of a file, if it changes none of those that it includes. -/
theorem processIncludedFiles_mono {more : Path → List Path → String → Loaded}
    (hmore : ∀ path included includeChain outcome, load path included includeChain = some outcome →
      more path included includeChain = some outcome)
    {outcome : Except LoadError (Table × List Path)}
    (hprocess : processIncludedFiles load includeChain entries config included = some outcome) :
    processIncludedFiles more includeChain entries config included = some outcome := by
  induction entries generalizing config included with
  | nil => exact hprocess
  | cons entry rest ih =>
      obtain ⟨name, filePath⟩ := entry
      rw [processIncludedFiles] at hprocess ⊢
      cases hload : load filePath included (includeChain ++ " -> " ++ filePath.toString) with
      | none =>
          rw [hload] at hprocess
          cases hprocess
      | some found =>
          rw [hmore _ _ _ _ hload]
          rw [hload] at hprocess
          cases found with
          | error error => exact hprocess
          | ok found => exact ih hprocess

end Included

theorem restores_loadConfigFile (fuel : ℕ) : Restores (loadConfigFile fs orders fuel) := by
  induction fuel with
  | zero => exact fun _ _ _ _ _ h => nomatch h
  | succ fuel ih =>
      intro path included includeChain data after hload
      cases outcome_of_loadConfigFile hload with
      | plain => rfl
      | merged config includes merged after hnew hfile hincludes hprocess =>
          rw [(processIncludedFiles_ok ih hprocess).1, List.erase_cons_head]

theorem loadConfigFile_mono {fuel more : ℕ} (hle : fuel ≤ more) {included : List Path}
    {includeChain : String} {outcome : Except LoadError (Table × List Path)}
    (hload : loadConfigFile fs orders fuel path included includeChain = some outcome) :
    loadConfigFile fs orders more path included includeChain = some outcome := by
  induction fuel generalizing more path included includeChain outcome with
  | zero => cases hload
  | succ fuel ih =>
      obtain ⟨more, rfl⟩ := Nat.exists_eq_add_of_le' (Nat.le_of_add_left_le hle)
      have hle' := Nat.le_of_succ_le_succ hle
      cases outcome_of_loadConfigFile hload with
      | circular hmem => rw [loadConfigFile, if_pos hmem]
      | unloaded error hnew hfile => rw [loadConfigFile, if_neg hnew, hfile]
      | empty hnew hfile => rw [loadConfigFile, if_neg hnew, hfile]
      | plain config hnew hfile hfilled hincludes =>
          rw [loadConfigFile, if_neg hnew, hfile]
          cases config with
          | nil => exact absurd rfl hfilled
          | cons entry rest =>
              dsimp only
              rw [hincludes, List.erase_cons_head]
      | failed config includes error hnew hfile hincludes hprocess =>
          rw [loadConfigFile_includes more includeChain hnew hfile hincludes,
            processIncludedFiles_mono (fun _ _ _ _ h => ih hle' h) hprocess]
      | merged config includes merged after hnew hfile hincludes hprocess =>
          rw [loadConfigFile_includes more includeChain hnew hfile hincludes,
            processIncludedFiles_mono (fun _ _ _ _ h => ih hle' h) hprocess]

/-! ## What the outcomes say about the files -/

/-- The entries that a file hands to `process_included_files`. -/
theorem mem_arranged (orders : Path → HashOrder (String × Path)) (path : Path)
    {config includes : Table}
    (hget : fs.files.get? place = some (.config config))
    (hincludes : includeTable config = some includes) {relative : Path}
    (hrelative : relative ∈ fs.includesOf place) :
    ∃ name, (name, path.include relative) ∈
      (orders path).arrange (filePathsDict path includes) := by
  obtain ⟨name, hmem⟩ :=
    (exists_mem_filePathsDict path hget hincludes _).mpr ⟨relative, hrelative, rfl⟩
  exact ⟨name, (HashOrder.mem_arrange _ _ _).mpr hmem⟩

theorem exists_relative_of_arranged {config includes : Table}
    (hget : fs.files.get? place = some (.config config))
    (hincludes : includeTable config = some includes) {entry : String × Path}
    (hmem : entry ∈ (orders path).arrange (filePathsDict path includes)) :
    ∃ relative ∈ fs.includesOf place, entry.2 = path.include relative :=
  (exists_mem_filePathsDict _ hget hincludes _).mp
    ⟨entry.1, (HashOrder.mem_arrange _ _ _).mp hmem⟩

/-- Under a file that loads there is no endless chain of includes. -/
theorem acc_of_loadConfigFile {fuel : ℕ} {included : List Path} {includeChain : String}
    {data : Table} {after : List Path}
    (hload : loadConfigFile fs orders fuel path included includeChain = some (.ok (data, after)))
    (hlocate : fs.locate path = some place) : Acc (flip fs.Includes) place := by
  induction fuel generalizing path included includeChain data after place with
  | zero => cases hload
  | succ fuel ih =>
      constructor
      rintro other ⟨relative, hrelative, htarget⟩
      obtain ⟨config, includes, hget, hincludes⟩ := exists_config_of_mem_includesOf hrelative
      cases outcome_of_loadConfigFile hload with
      | plain found _ hfound _ hnone =>
          rw [eq_of_loadTomlFile hlocate hget hfound, hincludes] at hnone
          cases hnone
      | merged found others merged after _ hfound hothers hprocess =>
          obtain rfl := eq_of_loadTomlFile hlocate hget hfound
          rw [hincludes] at hothers
          cases hothers
          obtain ⟨name, hmem⟩ := mem_arranged orders path hget hincludes
            hrelative
          obtain ⟨-, hall⟩ := processIncludedFiles_ok (restores_loadConfigFile fuel) hprocess
          obtain ⟨_, _, hchild⟩ := hall _ hmem
          exact ih hchild ((locate_include hlocate relative).trans htarget)

/-- A circular include is reported only where there is one. -/
theorem cyclic_of_isCircular {fuel : ℕ} {included : List Path} {includeChain : String}
    {error : LoadError}
    (hload : loadConfigFile fs orders fuel path included includeChain = some (.error error))
    (hcircular : error.isCircular = true)
    (hincluded : ∀ before ∈ included, ∃ place, fs.locate before = some place ∧
      ∀ other, fs.locate path = some other → TransGen fs.Includes place other) :
    ∃ before ∈ path :: included, ∃ place other, fs.locate before = some place ∧
      ReflTransGen fs.Includes place other ∧ TransGen fs.Includes other other := by
  induction fuel generalizing path included includeChain error with
  | zero => cases hload
  | succ fuel ih =>
      cases outcome_of_loadConfigFile hload with
      | circular hmem =>
          obtain ⟨place, hplace, hcycle⟩ := hincluded path hmem
          exact ⟨path, List.mem_cons_self, place, place, hplace, .refl, hcycle place hplace⟩
      | unloaded error _ hfile =>
          rw [LoadError.isCircular, isCircular_loadTomlFile hfile] at hcircular
          cases hcircular
      | empty => cases hcircular
      | failed config includes error _ hfile hincludes hprocess =>
          obtain ⟨-, place, hplace, hget⟩ := get?_of_loadTomlFile hfile
          obtain ⟨entry, hmem, _, hchild⟩ :=
            processIncludedFiles_error (restores_loadConfigFile fuel) hprocess
          obtain ⟨relative, hrelative, hentry⟩ := exists_relative_of_arranged hget hincludes hmem
          have hstep : ∀ other, fs.locate entry.2 = some other → fs.Includes place other := by
            intro other hother
            rw [hentry, locate_include hplace] at hother
            exact ⟨relative, hrelative, hother⟩
          obtain ⟨before, hbefore, found⟩ := ih hchild hcircular (by
            intro before hbefore
            rcases List.mem_cons.mp hbefore with rfl | hbefore
            · exact ⟨place, hplace, fun other hother => .single (hstep other hother)⟩
            · obtain ⟨first, hfirst, hreach⟩ := hincluded before hbefore
              exact ⟨first, hfirst, fun other hother =>
                (hreach place hplace).tail (hstep other hother)⟩)
          rcases List.mem_cons.mp hbefore with rfl | hbefore
          · obtain ⟨first, other, hfirst, hreach, hcycle⟩ := found
            exact ⟨path, List.mem_cons_self, place, other, hplace,
              .head (hstep first hfirst) hreach, hcycle⟩
          · exact ⟨before, hbefore, found⟩

theorem error_of_cyclic {fuel : ℕ} {outcome : Except LoadError Table}
    (hload : load fs orders fuel start = some outcome) (hcyclic : fs.Cyclic start) :
    ∃ error, outcome = .error error := by
  cases outcome with
  | error error => exact ⟨error, rfl⟩
  | ok data =>
      obtain ⟨place, other, hplace, hreach, hcycle⟩ := hcyclic
      obtain ⟨outcome, hrun, houtcome⟩ := Option.map_eq_some_iff.mp hload
      cases outcome with
      | error error => cases houtcome
      | ok found =>
          exact absurd hcycle (not_cycle_of_acc (acc_of_loadConfigFile hrun hplace) hreach)

theorem isCircular_of_acyclic {fuel : ℕ} {error : LoadError}
    (hload : load fs orders fuel start = some (.error error)) (hacyclic : ¬fs.Cyclic start) :
    error.isCircular = false := by
  obtain ⟨outcome, hrun, houtcome⟩ := Option.map_eq_some_iff.mp hload
  cases outcome with
  | ok found => cases houtcome
  | error found =>
      cases houtcome
      rw [← Bool.not_eq_true]
      intro hcircular
      obtain ⟨before, hbefore, place, other, hplace, hcycle⟩ :=
        cyclic_of_isCircular hrun hcircular nofun
      rw [List.mem_singleton.mp hbefore] at hplace
      exact hacyclic ⟨place, other, hplace, hcycle⟩

/-! ## Loading ends -/

/-- One call of `load_config_file` makes another. -/
def Calls (fs : FileSystem Dir) (child parent : Path × List Path) : Prop :=
  parent.1 ∉ parent.2 ∧ fs.tooLong parent.1 = false ∧ child.2 = parent.1 :: parent.2 ∧
    ∃ place, fs.locate parent.1 = some place ∧
      ∃ relative ∈ fs.includesOf place, child.1 = parent.1.include relative

/-- Some fuel does for all entries. -/
theorem exists_fuel_of_forall {fs : FileSystem Dir} {orders : Path → HashOrder (String × Path)}
    {included : List Path} (entries : List (String × Path))
    (heach : ∀ entry ∈ entries, ∃ fuel, ∀ includeChain,
      (loadConfigFile fs orders fuel entry.2 included includeChain).isSome) :
    ∃ fuel, ∀ entry ∈ entries, ∀ includeChain,
      (loadConfigFile fs orders fuel entry.2 included includeChain).isSome := by
  induction entries with
  | nil => exact ⟨0, nofun⟩
  | cons entry rest ih =>
      obtain ⟨hfirst, hrest⟩ := List.forall_mem_cons.mp heach
      obtain ⟨fuel, hfuel⟩ := hfirst
      obtain ⟨more, hmore⟩ := ih hrest
      refine ⟨max fuel more, List.forall_mem_cons.mpr ⟨fun includeChain => ?_, ?_⟩⟩
      · obtain ⟨outcome, houtcome⟩ := Option.isSome_iff_exists.mp (hfuel includeChain)
        rw [loadConfigFile_mono (le_max_left fuel more) houtcome]
        rfl
      · intro other hother includeChain
        obtain ⟨outcome, houtcome⟩ := Option.isSome_iff_exists.mp (hmore other hother includeChain)
        rw [loadConfigFile_mono (le_max_right fuel more) houtcome]
        rfl

theorem exists_fuel_of_acc (orders : Path → HashOrder (String × Path)) {call : Path × List Path}
    (hacc : Acc (Calls fs) call) :
    ∃ fuel, ∀ includeChain,
      (loadConfigFile fs orders fuel call.1 call.2 includeChain).isSome := by
  induction hacc with
  | intro call _ ih =>
      obtain ⟨path, included⟩ := call
      dsimp only
      by_cases hmem : path ∈ included
      · refine ⟨1, fun includeChain => ?_⟩
        rw [loadConfigFile, if_pos hmem]
        rfl
      cases hfile : loadTomlFile fs path with
      | error error =>
          refine ⟨1, fun includeChain => ?_⟩
          rw [loadConfigFile, if_neg hmem, hfile]
          rfl
      | ok config =>
          cases hincludes : includeTable config with
          | none =>
              refine ⟨1, fun includeChain => ?_⟩
              rw [loadConfigFile, if_neg hmem, hfile]
              cases config with
              | nil => rfl
              | cons entry rest =>
                  dsimp only
                  rw [hincludes]
                  rfl
          | some includes =>
              obtain ⟨hshort, place, hplace, hget⟩ := get?_of_loadTomlFile hfile
              have heach : ∀ entry ∈ (orders path).arrange (filePathsDict path includes),
                  ∃ fuel, ∀ includeChain,
                    (loadConfigFile fs orders fuel entry.2 (path :: included)
                      includeChain).isSome := by
                intro entry hentry
                obtain ⟨relative, hrelative, heq⟩ :=
                  exists_relative_of_arranged hget hincludes hentry
                exact ih (entry.2, path :: included)
                  ⟨hmem, hshort, rfl, place, hplace, relative, hrelative, heq⟩
              obtain ⟨fuel, hfuel⟩ := exists_fuel_of_forall _ heach
              refine ⟨fuel + 1, fun includeChain => ?_⟩
              rw [loadConfigFile_includes fuel includeChain hmem hfile hincludes]
              have hsome := processIncludedFiles_isSome includeChain config
                (restores_loadConfigFile fuel) hfuel
              obtain ⟨outcome, houtcome⟩ := Option.isSome_iff_exists.mp hsome
              rw [houtcome]
              cases outcome <;> rfl

/-- An endless walk along includes on which no path comes twice or is too long. -/
structure Walk (fs : FileSystem Dir) (paths : ℕ → Path) (places : ℕ → Dir × String)
    (relatives : ℕ → Path) : Prop where
  injective : Function.Injective paths
  short : ∀ n, fs.tooLong (paths n) = false
  mem : ∀ n, relatives n ∈ fs.includesOf (places n)
  next : ∀ n, paths (n + 1) = (paths n).include (relatives n)

theorem mem_keys_of_mem_includesOf {relative : Path} (hmem : relative ∈ fs.includesOf place) :
    place ∈ fs.files.keys := by
  obtain ⟨config, _, hget, -⟩ := exists_config_of_mem_includesOf hmem
  exact (fs.files.mem_keys_iff place).mpr ⟨_, hget⟩

/-- All includes of all files. -/
theorem finite_includes (fs : FileSystem Dir) :
    {relative | ∃ place, relative ∈ fs.includesOf place}.Finite := by
  apply (List.finite_toSet (fs.files.keys.flatMap fs.includesOf)).subset
  rintro relative ⟨place, hmem⟩
  exact List.mem_flatMap.mpr ⟨place, mem_keys_of_mem_includesOf hmem, hmem⟩

namespace Walk

variable {paths relatives : ℕ → Path} {places : ℕ → Dir × String}

/-- A path after an absolute include is that include. -/
theorem finite_absolute (hwalk : Walk fs paths places relatives) :
    {n | (relatives n).absolute = true}.Finite := by
  apply Set.Finite.of_injOn (f := fun n => paths (n + 1))
      (t := {relative | ∃ place, relative ∈ fs.includesOf place}) ?_ ?_ (finite_includes fs)
  · intro n habsolute
    dsimp only
    rw [hwalk.next, Path.include_of_absolute habsolute]
    exact ⟨places n, hwalk.mem n⟩
  · intro n _ m _ heq
    exact Nat.succ_injective (hwalk.injective heq)

/-- From some point on all includes are relative. -/
theorem exists_relative (hwalk : Walk fs paths places relatives) :
    ∃ bound, ∀ n, bound ≤ n → (relatives n).absolute = false := by
  obtain ⟨bound, hbound⟩ := hwalk.finite_absolute.bddAbove
  refine ⟨bound + 1, fun n hn => ?_⟩
  rw [← Bool.not_eq_true]
  intro habsolute
  exact Nat.not_succ_le_self bound (hn.trans (hbound habsolute))

/-- Once all includes are relative, directories are only added, and there is no room for many. -/
theorem finite_directories (hwalk : Walk fs paths places relatives) {bound : ℕ}
    (hbound : ∀ n, bound ≤ n → (relatives n).absolute = false) :
    {n | bound ≤ n ∧ (relatives n).directories ≠ []}.Finite := by
  have hnext : ∀ n, bound ≤ n → (paths (n + 1)).directories.length =
      (paths n).directories.length + (relatives n).directories.length := by
    intro n hn
    rw [hwalk.next, Path.include_of_relative (hbound n hn), List.length_append]
  have hgrows : ∀ n m, bound ≤ n → n ≤ m →
      (paths n).directories.length ≤ (paths m).directories.length := by
    intro n m hn hle
    induction m, hle using Nat.le_induction with
    | base => exact le_refl _
    | succ m hle ih =>
        rw [hnext m (hn.trans hle)]
        exact ih.trans (Nat.le_add_right _ _)
  have hadds : ∀ n m, bound ≤ n → (relatives n).directories ≠ [] → n < m →
      (paths n).directories.length < (paths m).directories.length := by
    intro n m hn hdirectories hlt
    have hle := hgrows (n + 1) m (Nat.le_succ_of_le hn) hlt
    have hpos := List.length_pos_of_ne_nil hdirectories
    rw [hnext n hn] at hle
    omega
  apply Set.Finite.of_injOn (f := fun n => (paths n).directories.length)
    (t := Set.Iio fs.pathMax) ?_ ?_ (Set.finite_Iio _)
  · intro n _
    apply Nat.lt_of_not_le
    intro hdeep
    have hlong := fs.tooLong_of_deep _ hdeep
    rw [hwalk.short n] at hlong
    cases hlong
  · rintro n ⟨hn, hndirs⟩ m ⟨hm, hmdirs⟩ heq
    rcases Nat.lt_trichotomy n m with hlt | rfl | hlt
    · exact absurd heq (hadds n m hn hndirs hlt).ne
    · rfl
    · exact absurd heq (hadds m n hm hmdirs hlt).ne'

/-- Then only the names of the files change, and those run out. -/
theorem elim (hwalk : Walk fs paths places relatives) : False := by
  obtain ⟨bound, hbound⟩ := hwalk.exists_relative
  obtain ⟨last, hlast⟩ := (hwalk.finite_directories hbound).bddAbove
  set past := max bound (last + 1) with hpast
  have hplain : ∀ n, past ≤ n → paths (n + 1) =
      ⟨(paths n).absolute, (paths n).directories, (relatives n).filename⟩ := by
    intro n hn
    have hn' : bound ≤ n := (le_max_left _ _).trans hn
    have hempty : (relatives n).directories = [] := by
      by_contra hdirectories
      have hle : n ≤ last := hlast ⟨hn', hdirectories⟩
      have hlt : last + 1 ≤ n := (le_max_right _ _).trans hn
      omega
    rw [hwalk.next, Path.include_of_relative (hbound n hn'), hempty, List.append_nil]
  have hsame : ∀ n, past ≤ n → (paths n).absolute = (paths past).absolute ∧
      (paths n).directories = (paths past).directories := by
    intro n hn
    induction n, hn using Nat.le_induction with
    | base => exact ⟨rfl, rfl⟩
    | succ n hn ih =>
        rw [hplain n hn]
        exact ih
  have hfinite : (Set.Ici past).Finite := by
    apply Set.Finite.of_injOn (f := fun n => paths (n + 1)) (t := (fun relative : Path =>
        (⟨(paths past).absolute, (paths past).directories, relative.filename⟩ : Path)) ''
      {relative | ∃ place, relative ∈ fs.includesOf place}) ?_ ?_ ((finite_includes fs).image _)
    · intro n hn
      refine ⟨relatives n, ⟨places n, hwalk.mem n⟩, ?_⟩
      dsimp only
      rw [hplain n hn, (hsame n hn).1, (hsame n hn).2]
    · intro n _ m _ heq
      exact Nat.succ_injective (hwalk.injective heq)
  exact Set.Ici_infinite past hfinite

end Walk

theorem acc_calls (fs : FileSystem Dir) (call : Path × List Path) : Acc (Calls fs) call := by
  by_contra hnot
  obtain ⟨calls, -, hcalls⟩ := not_acc_iff_exists_descending_chain.mp hnot
  choose hnew hshort hincluded places hlocate relatives hmem hnext using hcalls
  have hbefore : ∀ n k, (calls n).1 ∈ (calls (n + k + 1)).2 := by
    intro n k
    rw [hincluded]
    induction k with
    | zero => exact List.mem_cons_self
    | succ k ih =>
        rw [← hincluded] at ih
        exact List.mem_cons_of_mem _ ih
  have hapart : ∀ n m, n < m → (calls n).1 ≠ (calls m).1 := by
    intro n m hlt heq
    obtain ⟨k, rfl⟩ := Nat.exists_eq_add_of_lt hlt
    apply hnew (n + k + 1)
    rw [← heq]
    exact hbefore n k
  have hwalk : Walk fs (fun n => (calls n).1) places relatives := by
    constructor
    · intro n m heq
      rcases Nat.lt_trichotomy n m with hlt | rfl | hlt
      · exact absurd heq (hapart n m hlt)
      · rfl
      · exact absurd heq.symm (hapart m n hlt)
    · exact hshort
    · exact hmem
    · exact hnext
  exact hwalk.elim

/-- Loading ends, in whatever order includes are processed, with an error if the files in reach
include each other in a circle and with none about a circular include otherwise. -/
theorem loads_properly (fs : FileSystem Dir) (orders : Path → HashOrder (String × Path))
    (start : Path) : LoadsProperly fs orders start := by
  obtain ⟨fuel, hfuel⟩ := exists_fuel_of_acc orders (acc_calls fs (start, []))
  obtain ⟨outcome, houtcome⟩ := Option.isSome_iff_exists.mp (hfuel "")
  have hload : load fs orders fuel start = some (outcome.map Prod.fst) := by
    unfold load
    rw [houtcome]
    rfl
  refine ⟨fuel, _, hload, error_of_cyclic hload, fun hacyclic error herror => ?_⟩
  rw [herror] at hload
  exact isCircular_of_acyclic hload hacyclic

/-- A file `a.toml` that includes `./a.toml`, where paths have room for two directories. -/
def selfIncluding : FileSystem Unit where
  root := ()
  cwd := ()
  enter := fun _ name => if name = "." then some () else none
  files := Dict.set ∅ ((), "a.toml")
    (.config [("include", .table [("_", .string "./a.toml")])])
  named := by decide
  tooLong := fun path => 3 ≤ path.directories.length
  pathMax := 3
  tooLong_of_deep := fun _ hdeep => decide_eq_true hdeep

-- no two paths are equal, and the last one is too long
example : load selfIncluding (fun _ => .insertion) 4 (.ofString "a.toml") =
    some (.error (.processing (.processing (.processing (.processing
      (.tooLong ⟨false, [".", ".", "."], "a.toml"⟩)))))) :=
  rfl

end Trun.Config
