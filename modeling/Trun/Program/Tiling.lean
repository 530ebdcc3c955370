import Mathlib.Data.Int.ConditionallyCompleteOrder
import Mathlib.Data.Int.SuccPred
import Mathlib.Order.Monotone.Basic

/-!
# Tilings of the integers

Half-open intervals that follow each other without gaps, each with its index.
-/

namespace Trun

structure Tiling where
  /-- Where the tile with the index starts. -/
  start : ℤ → ℤ
  /-- The tile of a point. -/
  index : ℤ → ℤ
  start_lt_succ : ∀ k, start k < start (k + 1)
  start_index_le : ∀ x, start (index x) ≤ x
  lt_start_index : ∀ x, x < start (index x + 1)

namespace Tiling

variable (tiling : Tiling) {k x : ℤ}

theorem strictMono_start : StrictMono tiling.start :=
  strictMono_of_lt_succ fun k _ => tiling.start_lt_succ k

/-- Only one tile has the point. -/
theorem index_eq (hlow : tiling.start k ≤ x) (hhigh : x < tiling.start (k + 1)) :
    tiling.index x = k := by
  have hle : k < tiling.index x + 1 :=
    tiling.strictMono_start.lt_iff_lt.mp (hlow.trans_lt (tiling.lt_start_index x))
  have hge : tiling.index x < k + 1 :=
    tiling.strictMono_start.lt_iff_lt.mp ((tiling.start_index_le x).trans_lt hhigh)
  omega

theorem index_start (k : ℤ) : tiling.index (tiling.start k) = k :=
  tiling.index_eq le_rfl (tiling.start_lt_succ k)

theorem index_before_start (k : ℤ) : tiling.index (tiling.start k - 1) = k - 1 := by
  apply tiling.index_eq
  · have h := tiling.start_lt_succ (k - 1)
    rw [sub_add_cancel] at h
    omega
  · rw [sub_add_cancel]
    omega

end Tiling

end Trun
