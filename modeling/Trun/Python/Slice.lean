import Mathlib.Data.Int.Basic
import Mathlib.Data.List.Basic

/-!
# Slices

`xs[i:]` and `xs[:i]`, where a negative bound counts from the end.
-/

namespace Trun

universe u

variable {α : Type u}

/-- `xs[i:]`. -/
def sliceFrom (xs : List α) (i : ℤ) : List α :=
  if i < 0 then xs.drop (xs.length - i.natAbs) else xs.drop i.natAbs

/-- `xs[:i]`. -/
def sliceTo (xs : List α) (i : ℤ) : List α :=
  if i < 0 then xs.take (xs.length - i.natAbs) else xs.take i.natAbs

/-- The last elements, from the end. -/
theorem reverse_sliceFrom_neg (xs : List α) {count : ℤ} (hcount : 0 < count) :
    (sliceFrom xs (-count)).reverse = xs.reverse.take count.toNat := by
  have hnat : (-count).natAbs = count.toNat := by omega
  rw [sliceFrom, if_pos (by omega), hnat, List.take_reverse]

/-- Asked for the last zero elements, Python gives all of them. -/
theorem sliceFrom_neg_zero (xs : List α) : sliceFrom xs (-0) = xs := rfl

theorem sliceTo_of_nonneg (xs : List α) {count : ℤ} (hcount : 0 ≤ count) :
    sliceTo xs count = xs.take count.toNat := by
  have hnat : count.natAbs = count.toNat := by omega
  rw [sliceTo, if_neg (by omega), hnat]

end Trun
