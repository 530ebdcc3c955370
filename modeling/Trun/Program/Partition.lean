import Mathlib.Algebra.Ring.Nat
import Mathlib.Data.Finset.Card
import Mathlib.Data.List.Count

/-!
# Lists of sets that make up a whole

Sets that are computed one by one partition a whole when they are disjoint and
nothing is missing.  Both are a matter of how many of the sets an element is
in.
-/

namespace Trun

universe u

variable {α : Type u} [DecidableEq α]

/-- The sets taken together. -/
def unionAll (parts : List (Finset α)) : Finset α := parts.foldr (· ∪ ·) ∅

/-- The sets are disjoint and make up the whole. -/
structure Partitions (parts : List (Finset α)) (whole : Finset α) : Prop where
  disjoint : parts.Pairwise Disjoint
  covers : unionAll parts = whole

@[simp] theorem unionAll_nil : unionAll ([] : List (Finset α)) = ∅ := rfl

@[simp] theorem unionAll_cons (part : Finset α) (parts : List (Finset α)) :
    unionAll (part :: parts) = part ∪ unionAll parts := rfl

theorem mem_unionAll {parts : List (Finset α)} {x : α} :
    x ∈ unionAll parts ↔ ∃ part ∈ parts, x ∈ part := by
  induction parts with
  | nil => simp
  | cons part parts ih => simp only [unionAll_cons, Finset.mem_union, ih, List.exists_mem_cons_iff]

theorem mem_unionAll_iff_countP {parts : List (Finset α)} {x : α} :
    x ∈ unionAll parts ↔ 0 < parts.countP (x ∈ ·) := by
  simp only [mem_unionAll, List.countP_pos_iff, decide_eq_true_eq]

theorem pairwise_disjoint_iff_countP {parts : List (Finset α)} :
    parts.Pairwise Disjoint ↔ ∀ x, parts.countP (x ∈ ·) ≤ 1 := by
  induction parts with
  | nil => simp
  | cons part parts ih =>
      have hhead : (∀ other ∈ parts, Disjoint part other) ↔
          ∀ x ∈ part, parts.countP (x ∈ ·) = 0 := by
        simp only [List.countP_eq_zero, decide_eq_true_eq, Finset.disjoint_left]
        exact ⟨fun h x hx other hother => h other hother hx,
          fun h other hother x hx => h x hx other hother⟩
      rw [List.pairwise_cons, hhead, ih]
      constructor
      · rintro ⟨hpart, hparts⟩ x
        rw [List.countP_cons]
        by_cases hx : x ∈ part
        · simp [hx, hpart x hx]
        · simpa [hx] using hparts x
      · intro hcount
        refine ⟨fun x hx => ?_, fun x => ?_⟩
        · have := hcount x
          rw [List.countP_cons_of_pos (by simpa using hx)] at this
          omega
        · have := hcount x
          rw [List.countP_cons] at this
          omega

/-- Every element of the whole is in one of the sets, and no other element is in any. -/
theorem partitions_iff {parts : List (Finset α)} {whole : Finset α} :
    Partitions parts whole ↔ ∀ x, parts.countP (x ∈ ·) = if x ∈ whole then 1 else 0 := by
  constructor
  · rintro ⟨hdisjoint, rfl⟩ x
    have hle := pairwise_disjoint_iff_countP.mp hdisjoint x
    by_cases hx : x ∈ unionAll parts
    · have := mem_unionAll_iff_countP.mp hx
      rw [if_pos hx]
      omega
    · have := mt mem_unionAll_iff_countP.mpr hx
      rw [if_neg hx]
      omega
  · intro hcount
    constructor
    · rw [pairwise_disjoint_iff_countP]
      intro x
      rw [hcount x]
      split <;> omega
    · ext x
      rw [mem_unionAll_iff_countP, hcount x]
      split <;> simp_all

/-- The sizes of the sets add up to the size of the whole. -/
theorem Partitions.sum_card {parts : List (Finset α)} {whole : Finset α}
    (hparts : Partitions parts whole) : (parts.map Finset.card).sum = whole.card := by
  obtain ⟨hdisjoint, rfl⟩ := hparts
  induction parts with
  | nil => rfl
  | cons part parts ih =>
      obtain ⟨hpart, hrest⟩ := List.pairwise_cons.mp hdisjoint
      have hapart : Disjoint part (unionAll parts) := by
        rw [Finset.disjoint_left]
        intro x hx hmem
        obtain ⟨other, hother, hxother⟩ := mem_unionAll.mp hmem
        exact Finset.disjoint_left.mp (hpart other hother) hx hxother
      rw [List.map_cons, List.sum_cons, ih hrest, unionAll_cons,
        Finset.card_union_of_disjoint hapart]

end Trun
