import Mathlib.Algebra.Ring.Divisibility.Basic
import Mathlib.Data.Int.ModEq
import Trun.Program.Tiling

/-!
# Floors onto grids

A grid takes every n-th tile of a tiling, counted from some tile.  Clamping a
point to the grid is the floor onto the starts that stepping forwards
enumerates.
-/

namespace Trun

namespace Tiling

variable (tiling : Tiling) {j k x y : ℤ}

theorem start_le_start : tiling.start j ≤ tiling.start k ↔ j ≤ k :=
  tiling.strictMono_start.le_iff_le

theorem start_le_iff : tiling.start k ≤ x ↔ k ≤ tiling.index x := by
  constructor
  · intro hle
    have hlt := tiling.strictMono_start.lt_iff_lt.mp (hle.trans_lt (tiling.lt_start_index x))
    omega
  · intro hle
    exact (tiling.start_le_start.mpr hle).trans (tiling.start_index_le x)

theorem lt_start_iff : x < tiling.start k ↔ tiling.index x < k := by
  rw [← not_le, tiling.start_le_iff, not_le]

theorem monotone_index : Monotone tiling.index := by
  intro x y hxy
  exact tiling.start_le_iff.mp ((tiling.start_index_le x).trans hxy)

end Tiling

/-- Every `interval`-th tile, one of which is `origin`. -/
structure Grid extends Tiling where
  interval : ℤ
  origin : ℤ
  pos : 0 < interval

namespace Grid

variable (grid : Grid)

/-- The last tile of the grid up to a tile. -/
def floorIndex (k : ℤ) : ℤ := k - (k - grid.origin) % grid.interval

def clamp (x : ℤ) : ℤ := grid.start (grid.floorIndex (grid.index x))

def next (x : ℤ) : ℤ := grid.start (grid.index x + grid.interval)

/-- The tiles of the grid. -/
def Has (k : ℤ) : Prop := grid.interval ∣ k - grid.origin

variable {grid} {j k p x y : ℤ}

theorem Has.add_interval (hk : grid.Has k) : grid.Has (k + grid.interval) := by
  have hsum := dvd_add_self_right.mpr hk
  rwa [sub_add_eq_add_sub] at hsum

theorem Has.sub_interval (hk : grid.Has k) : grid.Has (k - grid.interval) := by
  have hdiff := dvd_sub_self_right.mpr hk
  rwa [sub_right_comm] at hdiff

theorem has_floorIndex (k : ℤ) : grid.Has (grid.floorIndex k) := by
  have hdvd := Int.dvd_self_sub_emod (x := k - grid.origin) (m := grid.interval)
  rwa [sub_right_comm] at hdvd

theorem floorIndex_le (grid : Grid) (k : ℤ) : grid.floorIndex k ≤ k :=
  sub_le_self k (Int.emod_nonneg _ grid.pos.ne')

theorem lt_floorIndex_add (grid : Grid) (k : ℤ) : k < grid.floorIndex k + grid.interval := by
  have hlt := Int.emod_lt_of_pos (k - grid.origin) grid.pos
  rw [floorIndex]
  omega

/-- No two tiles of the grid are closer than its interval. -/
theorem Has.eq_of_near (hj : grid.Has j) (hk : grid.Has k) (hbefore : j < k + grid.interval)
    (hafter : k < j + grid.interval) : j = k := by
  have hdvd : grid.interval ∣ j - k := by
    have hdiff := dvd_sub hj hk
    rwa [sub_sub_sub_cancel_right] at hdiff
  have hzero := Int.eq_zero_of_abs_lt_dvd hdvd (abs_lt.mpr ⟨by omega, by omega⟩)
  omega

theorem floorIndex_eq_iff :
    grid.floorIndex k = j ↔ grid.Has j ∧ j ≤ k ∧ k < j + grid.interval := by
  constructor
  · rintro rfl
    exact ⟨has_floorIndex k, grid.floorIndex_le k, grid.lt_floorIndex_add k⟩
  · rintro ⟨hj, hle, hlt⟩
    exact (has_floorIndex k).eq_of_near hj ((grid.floorIndex_le k).trans_lt hlt)
      (hle.trans_lt (grid.lt_floorIndex_add k))

theorem monotone_floorIndex (grid : Grid) : Monotone grid.floorIndex := by
  intro j k hjk
  by_contra hlt
  rw [not_le] at hlt
  have hj := grid.floorIndex_le j
  have hk := grid.lt_floorIndex_add k
  have heq := (has_floorIndex j).eq_of_near (has_floorIndex k) (by omega)
    (hlt.trans (lt_add_of_pos_right _ grid.pos))
  omega

/-- A start on the grid is the floor of what lies between it and the next one. -/
theorem clamp_eq_start_iff : grid.clamp x = grid.start k ↔
    grid.Has k ∧ grid.start k ≤ x ∧ x < grid.start (k + grid.interval) := by
  rw [clamp, grid.strictMono_start.injective.eq_iff, floorIndex_eq_iff, grid.start_le_iff,
    grid.lt_start_iff]

theorem clamp_start (hk : grid.Has k) : grid.clamp (grid.start k) = grid.start k :=
  clamp_eq_start_iff.mpr
    ⟨hk, le_rfl, grid.strictMono_start (lt_add_of_pos_right k grid.pos)⟩

theorem next_start (k : ℤ) : grid.next (grid.start k) = grid.start (k + grid.interval) := by
  rw [next, grid.index_start]

theorem clamp_le (grid : Grid) (x : ℤ) : grid.clamp x ≤ x :=
  (clamp_eq_start_iff.mp (show grid.clamp x = grid.start _ from rfl)).2.1

theorem lt_next_clamp (grid : Grid) (x : ℤ) : x < grid.next (grid.clamp x) := by
  rw [clamp, next_start]
  exact (clamp_eq_start_iff.mp (show grid.clamp x = grid.start _ from rfl)).2.2

@[simp] theorem clamp_clamp (grid : Grid) (x : ℤ) :
    grid.clamp (grid.clamp x) = grid.clamp x :=
  clamp_start (has_floorIndex _)

theorem monotone_clamp (grid : Grid) : Monotone grid.clamp := by
  intro x y hxy
  exact grid.start_le_start.mpr (grid.monotone_floorIndex (grid.monotone_index hxy))

/-- A fixed point is a start on the grid. -/
theorem exists_start (hfixed : grid.clamp x = x) : ∃ k, grid.Has k ∧ x = grid.start k :=
  ⟨_, has_floorIndex _, hfixed.symm⟩

theorem clamp_next (hfixed : grid.clamp x = x) : grid.clamp (grid.next x) = grid.next x := by
  obtain ⟨k, hk, rfl⟩ := exists_start hfixed
  rw [next_start]
  exact clamp_start hk.add_interval

theorem not_fixed_between (hfixed : grid.clamp x = x) (hafter : x < y)
    (hbefore : y < grid.next x) : grid.clamp y ≠ y := by
  intro hy
  obtain ⟨j, hj, rfl⟩ := exists_start hfixed
  obtain ⟨k, hk, rfl⟩ := exists_start hy
  rw [next_start, grid.strictMono_start.lt_iff_lt] at hbefore
  rw [grid.strictMono_start.lt_iff_lt] at hafter
  have heq := hk.eq_of_near hj hbefore (hafter.trans (lt_add_of_pos_right k grid.pos))
  omega

/-- What lies before a start on the grid, but by no more than the interval, has the previous start
as its floor. -/
theorem clamp_eq_iff_next_eq (hfixed : grid.clamp x = x) (hbefore : y < x)
    (hnear : grid.start (grid.index x - grid.interval) ≤ y) :
    grid.clamp y = p ↔ grid.clamp p = p ∧ grid.next p = x := by
  obtain ⟨k, hk, rfl⟩ := exists_start hfixed
  rw [grid.index_start] at hnear
  have hclamp : grid.clamp y = grid.start (k - grid.interval) := by
    apply clamp_eq_start_iff.mpr
    rw [sub_add_cancel]
    exact ⟨hk.sub_interval, hnear, hbefore⟩
  constructor
  · rintro rfl
    rw [clamp_clamp, hclamp, next_start, sub_add_cancel]
    exact ⟨rfl, rfl⟩
  · rintro ⟨hp, hnext⟩
    obtain ⟨j, hj, rfl⟩ := exists_start hp
    rw [next_start, grid.strictMono_start.injective.eq_iff] at hnext
    rw [hclamp, ← hnext, add_sub_cancel_right]

end Grid

end Trun
