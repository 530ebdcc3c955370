import Mathlib.Data.List.Basic
import Mathlib.Logic.Function.Basic

/-!
# A disk

Names lead to numbered files.  To rename or to remove a name leaves the file where it is, so that
whatever has the file open does not notice; the content of a file changes only where its number is
written to or its name is created anew.
-/

namespace Trun

universe u

/-- What is in a file after a write at an offset; a gap before it is filled with zeros. -/
def overwrite (old : List UInt8) (offset : ℕ) (data : List UInt8) : List UInt8 :=
  (old ++ List.replicate (offset - old.length) 0).take offset ++ data ++
    old.drop (offset + data.length)

theorem overwrite_length (old data : List UInt8) :
    overwrite old old.length data = old ++ data := by
  rw [overwrite, Nat.sub_self, List.replicate_zero, List.append_nil, List.take_length,
    List.drop_eq_nil_of_le (Nat.le_add_right _ _), List.append_nil]

/-- The numbers of all files are below `fresh`, and no two names lead to one file. -/
structure Disk (ν : Type u) where
  file : ν → Option ℕ
  content : ℕ → List UInt8
  fresh : ℕ
  bound : ∀ {name n}, file name = some n → n < fresh
  single : ∀ {name other n}, file name = some n → file other = some n → name = other

namespace Disk

variable {ν : Type u} {disk : Disk ν} {name other : ν} {n m offset : ℕ}
  {data : List UInt8}

/-- What is found under a name. -/
def read (disk : Disk ν) (name : ν) : Option (List UInt8) := (disk.file name).map disk.content

/-- The number that a file opened for writing has. -/
def number (disk : Disk ν) (name : ν) : ℕ := (disk.file name).getD disk.fresh

/-- To write to an open file. -/
def write (disk : Disk ν) (n offset : ℕ) (data : List UInt8) : Disk ν :=
  { disk with content := Function.update disk.content n (overwrite (disk.content n) offset data) }

@[simp] theorem write_file : (disk.write n offset data).file = disk.file := rfl

@[simp] theorem write_content_self :
    (disk.write n offset data).content n = overwrite (disk.content n) offset data :=
  Function.update_self ..

theorem write_content_end (hoffset : offset = (disk.content n).length) :
    (disk.write n offset data).content n = disk.content n ++ data := by
  rw [write_content_self, hoffset, overwrite_length]

theorem write_content_other (hm : m ≠ n) :
    (disk.write n offset data).content m = disk.content m :=
  Function.update_of_ne hm ..

theorem read_eq (hfile : disk.file name = some n) : disk.read name = some (disk.content n) := by
  rw [read, hfile, Option.map_some]

/-- What a name shows is left alone by a change that leaves its file alone. -/
theorem read_congr {disk' : Disk ν} (hfile : disk'.file name = disk.file name)
    (hcontent : ∀ n, disk.file name = some n → disk'.content n = disk.content n) :
    disk'.read name = disk.read name := by
  rw [read, read, hfile]
  cases h : disk.file name with
  | none => rfl
  | some n => rw [Option.map_some, Option.map_some, hcontent n h]

variable [DecidableEq ν]

/-- To open for writing: a file that is there loses its content. -/
def create (disk : Disk ν) (name : ν) : Disk ν where
  file := Function.update disk.file name (some (disk.number name))
  content := Function.update disk.content (disk.number name) []
  fresh := disk.fresh + 1
  bound := by
    intro other n h
    by_cases hother : other = name
    · subst hother
      rw [Function.update_self] at h
      obtain rfl := Option.some.inj h
      cases hfile : disk.file other with
      | none => simp [number, hfile]
      | some k =>
          have := disk.bound hfile
          simp only [number, hfile, Option.getD_some]
          omega
    · rw [Function.update_of_ne hother] at h
      exact Nat.lt_succ_of_lt (disk.bound h)
  single := by
    have hnumber : ∀ {other}, disk.file other = some (disk.number name) → other = name := by
      intro other h
      cases hfile : disk.file name with
      | none =>
          have := disk.bound h
          simp [number, hfile] at this
      | some k => exact disk.single h (by simp [number, hfile])
    intro left right n hleft hright
    by_cases hl : left = name
    · subst hl
      by_cases hr : right = left
      · exact hr.symm
      · rw [Function.update_self] at hleft
        obtain rfl := Option.some.inj hleft
        rw [Function.update_of_ne hr] at hright
        exact (hnumber hright).symm
    · rw [Function.update_of_ne hl] at hleft
      by_cases hr : right = name
      · subst hr
        rw [Function.update_self] at hright
        obtain rfl := Option.some.inj hright
        exact hnumber hleft
      · rw [Function.update_of_ne hr] at hright
        exact disk.single hleft hright

/-- To remove a name; nothing happens to a name that is not there. -/
def remove (disk : Disk ν) (name : ν) : Disk ν where
  file := Function.update disk.file name none
  content := disk.content
  fresh := disk.fresh
  bound := by
    intro other n h
    by_cases hother : other = name
    · subst hother
      simp at h
    · rw [Function.update_of_ne hother] at h
      exact disk.bound h
  single := by
    intro left right n hleft hright
    by_cases hl : left = name
    · subst hl
      simp at hleft
    by_cases hr : right = name
    · subst hr
      simp at hright
    rw [Function.update_of_ne hl] at hleft
    rw [Function.update_of_ne hr] at hright
    exact disk.single hleft hright

/-- To rename: what the new name led to is lost.  Nothing happens if the old name is not there. -/
def rename (disk : Disk ν) (old new : ν) : Disk ν where
  file := if (disk.file old).isSome then
      Function.update (Function.update disk.file old none) new (disk.file old)
    else disk.file
  content := disk.content
  fresh := disk.fresh
  bound := by
    intro name n h
    split at h
    · by_cases hnew : name = new
      · subst hnew
        rw [Function.update_self] at h
        exact disk.bound h
      · rw [Function.update_of_ne hnew] at h
        exact (disk.remove old).bound h
    · exact disk.bound h
  single := by
    have hgone : ∀ {name n}, Function.update disk.file old none name = some n →
        disk.file old ≠ some n := by
      intro name n h hold
      by_cases hname : name = old
      · subst hname
        simp at h
      · rw [Function.update_of_ne hname] at h
        exact hname (disk.single h hold)
    intro left right n hleft hright
    split at hleft <;> split at hright
    · by_cases hl : left = new <;> by_cases hr : right = new
      · exact hl.trans hr.symm
      · subst hl
        rw [Function.update_self] at hleft
        rw [Function.update_of_ne hr] at hright
        exact (hgone hright hleft).elim
      · subst hr
        rw [Function.update_self] at hright
        rw [Function.update_of_ne hl] at hleft
        exact (hgone hleft hright).elim
      · rw [Function.update_of_ne hl] at hleft
        rw [Function.update_of_ne hr] at hright
        exact (disk.remove old).single hleft hright
    all_goals first | contradiction | exact disk.single hleft hright

@[simp] theorem create_file_self : (disk.create name).file name = some (disk.number name) :=
  Function.update_self ..

theorem create_file_other (hother : other ≠ name) :
    (disk.create name).file other = disk.file other :=
  Function.update_of_ne hother ..

@[simp] theorem create_content_self : (disk.create name).content (disk.number name) = [] :=
  Function.update_self ..

theorem create_content_other (hn : n ≠ disk.number name) :
    (disk.create name).content n = disk.content n :=
  Function.update_of_ne hn ..

@[simp] theorem remove_file_self : (disk.remove name).file name = none := Function.update_self ..

theorem remove_file_other (hother : other ≠ name) :
    (disk.remove name).file other = disk.file other :=
  Function.update_of_ne hother ..

theorem file_of_remove (hfile : (disk.remove name).file other = some n) :
    disk.file other = some n := by
  by_cases hother : other = name
  · subst hother
    rw [remove_file_self] at hfile
    cases hfile
  · rwa [remove_file_other hother] at hfile

@[simp] theorem remove_content : (disk.remove name).content = disk.content := rfl

@[simp] theorem rename_content : (disk.rename name other).content = disk.content := rfl

theorem rename_file_new (hfile : disk.file name = some n) :
    (disk.rename name other).file other = some n := by
  simp [rename, hfile]

theorem rename_file_old (hne : name ≠ other) : (disk.rename name other).file name = none := by
  unfold rename
  dsimp only
  split
  · rw [Function.update_of_ne hne, Function.update_self]
  · rename_i hfile
    exact Option.not_isSome_iff_eq_none.mp hfile

theorem rename_file_other {third : ν} (hname : third ≠ name) (hother : third ≠ other) :
    (disk.rename name other).file third = disk.file third := by
  unfold rename
  dsimp only
  split
  · rw [Function.update_of_ne hother, Function.update_of_ne hname]
  · rfl

/-- The disk was changed under one name only, and not by a rename: another name leads where it
led, and the files that were there before are as they were unless the name led to them. -/
structure ChangedAt (disk disk' : Disk ν) (name : ν) : Prop where
  file : ∀ {other}, other ≠ name → disk'.file other = disk.file other
  content : ∀ {n}, n < disk.fresh → disk.file name ≠ some n → disk'.content n = disk.content n
  fresh : disk.fresh ≤ disk'.fresh
  old : ∀ {n}, n < disk.fresh → disk'.file name = some n → disk.file name = some n

namespace ChangedAt

omit [DecidableEq ν] in
theorem refl (disk : Disk ν) (name : ν) : ChangedAt disk disk name :=
  ⟨fun _ => rfl, fun _ _ => rfl, Nat.le_refl _, fun _ h => h⟩

theorem create : ChangedAt disk (disk.create name) name := by
  constructor
  · exact create_file_other
  · intro n hn hname
    apply create_content_other
    rintro rfl
    cases hfile : disk.file name with
    | none => simp [number, hfile] at hn
    | some k => simp [number, hfile] at hname
  · exact Nat.le_succ _
  · intro n hn hname
    rw [create_file_self, Option.some.injEq] at hname
    cases hfile : disk.file name with
    | none =>
        simp only [number, hfile, Option.getD_none] at hname
        omega
    | some k => simpa [number, hfile] using hname

omit [DecidableEq ν] in
theorem write (hfile : disk.file name = some n) :
    ChangedAt disk (disk.write n offset data) name := by
  refine ⟨fun _ => rfl, fun {m} _ hname => write_content_other ?_, Nat.le_refl _, fun _ h => h⟩
  rintro rfl
  exact hname hfile

theorem remove : ChangedAt disk (disk.remove name) name :=
  ⟨remove_file_other, fun _ _ => rfl, Nat.le_refl _, fun _ h => by simp at h⟩

end ChangedAt

end Disk

end Trun
