import Mathlib.Data.Set.Card
import Mathlib.Logic.Function.Iterate

/-!
# Ranges of a successor

A finite set that is entered at one point and left at one point, along an injective successor
without cycles, is the range between the two.
-/

namespace Trun

open Function

universe u

variable {α : Type u} {next : α → α} {s : Set α} {first last : α}

/-- The successor never leads back. -/
def NoReturn (next : α → α) : Prop := ∀ a n, next^[n + 1] a ≠ a

/-- The values from the first to the last one. -/
def IsRange (next : α → α) (s : Set α) (first last : α) : Prop :=
  ∃ n, next^[n] first = last ∧ ∀ a, a ∈ s ↔ ∃ i ≤ n, next^[i] first = a

/-- No value comes twice. -/
theorem NoReturn.injective_iterate (hacyclic : NoReturn next) (hinjective : Injective next)
    (first : α) : Injective fun n => next^[n] first := by
  have hlt : ∀ m n, m < n → next^[m] first ≠ next^[n] first := by
    intro m n hlt heq
    obtain ⟨k, rfl⟩ := Nat.exists_eq_add_of_lt hlt
    rw [Nat.add_assoc, iterate_add_apply] at heq
    exact hacyclic first k (hinjective.iterate m heq.symm)
  intro m n heq
  by_contra hne
  rcases Nat.lt_or_gt_of_ne hne with h | h
  · exact hlt m n h heq
  · exact hlt n m h heq.symm

/-- From every value on the successor leaves a finite set. -/
theorem NoReturn.exists_leaves (hacyclic : NoReturn next) (hinjective : Injective next)
    (hfinite : s.Finite) (first : α) : ∃ n, next^[n] first ∉ s := by
  by_contra h
  push Not at h
  apply Set.infinite_range_of_injective (hacyclic.injective_iterate hinjective first)
  exact hfinite.subset (Set.range_subset_iff.mpr h)

/-- Where every value has its predecessor in the set, there is none. -/
theorem NoReturn.eq_empty_of_predecessors (hacyclic : NoReturn next) (hinjective : Injective next)
    (hfinite : s.Finite) (hback : s ⊆ next '' s) : s = ∅ := by
  have hsame : s = next '' s := by
    apply Set.eq_of_subset_of_ncard_le hback _ (hfinite.image next)
    rw [Set.ncard_image_of_injective s hinjective]
  have hstays : ∀ a ∈ s, ∀ n, next^[n] a ∈ s := by
    intro a ha n
    induction n with
    | zero => exact ha
    | succ n ih =>
        rw [iterate_succ_apply', hsame]
        exact Set.mem_image_of_mem next ih
  apply Set.eq_empty_of_forall_notMem
  intro a ha
  obtain ⟨n, hn⟩ := hacyclic.exists_leaves hinjective hfinite a
  exact hn (hstays a ha n)

/-! ## Entries and exits -/

/-- A range is entered at its first value. -/
theorem IsRange.entries (hrange : IsRange next s first last) (hacyclic : NoReturn next) :
    s \ next '' s = {first} := by
  obtain ⟨n, -, hmem⟩ := hrange
  ext a
  rw [Set.mem_sdiff, hmem, Set.mem_singleton_iff]
  constructor
  · rintro ⟨⟨i, hi, rfl⟩, hnew⟩
    cases i with
    | zero => rfl
    | succ i =>
        refine absurd ⟨next^[i] first, (hmem _).mpr ⟨i, by omega, rfl⟩, ?_⟩ hnew
        exact (iterate_succ_apply' next i first).symm
  · rintro rfl
    refine ⟨⟨0, n.zero_le, rfl⟩, ?_⟩
    rintro ⟨b, hb, hback⟩
    obtain ⟨i, -, rfl⟩ := (hmem b).mp hb
    exact hacyclic a i (by rw [iterate_succ_apply', hback])

/-- A range is left behind its last value. -/
theorem IsRange.exits (hrange : IsRange next s first last) (hacyclic : NoReturn next)
    (hinjective : Injective next) : next '' s \ s = {next last} := by
  obtain ⟨n, rfl, hmem⟩ := hrange
  ext a
  rw [Set.mem_sdiff, hmem, Set.mem_singleton_iff]
  constructor
  · rintro ⟨⟨b, hb, rfl⟩, hnew⟩
    obtain ⟨i, hi, rfl⟩ := (hmem b).mp hb
    rcases Nat.lt_or_eq_of_le hi with hlt | rfl
    · exact absurd ⟨i + 1, hlt, iterate_succ_apply' next i first⟩ hnew
    · rfl
  · rintro rfl
    refine ⟨⟨_, (hmem _).mpr ⟨n, le_rfl, rfl⟩, rfl⟩, ?_⟩
    rintro ⟨i, hi, heq⟩
    rw [← iterate_succ_apply' next] at heq
    have := hacyclic.injective_iterate hinjective first heq
    omega

/-- A finite set with one entry and one exit is a range. -/
theorem isRange_of_entries_exits (hacyclic : NoReturn next) (hinjective : Injective next)
    (hfinite : s.Finite) (hentries : s \ next '' s = {first})
    (hexits : next '' s \ s = {next last}) : IsRange next s first last := by
  classical
  have hleaves := hacyclic.exists_leaves hinjective hfinite first
  have hfirst : first ∈ s := (hentries.ge rfl).1
  obtain ⟨n, hn⟩ : ∃ n, Nat.find hleaves = n + 1 := by
    apply Nat.exists_eq_succ_of_ne_zero
    intro hzero
    have hspec := Nat.find_spec hleaves
    rw [hzero] at hspec
    exact hspec hfirst
  have hin : ∀ i ≤ n, next^[i] first ∈ s := fun i hi => by
    by_contra h
    have := Nat.find_min' hleaves h
    omega
  have hout : next^[n + 1] first ∉ s := hn ▸ Nat.find_spec hleaves
  -- the orbit of the first value leaves the set where the exit is
  have hlast : next^[n] first = last := by
    apply hinjective
    have hexit : next (next^[n] first) ∈ next '' s \ s :=
      ⟨Set.mem_image_of_mem next (hin n le_rfl), by rwa [← iterate_succ_apply' next]⟩
    rw [hexits] at hexit
    exact hexit
  -- what is not on the orbit has its predecessors there
  have hrest : s \ {a | ∃ i ≤ n, next^[i] first = a} = ∅ := by
    apply hacyclic.eq_empty_of_predecessors hinjective (hfinite.subset Set.sdiff_subset)
    rintro a ⟨ha, hoff⟩
    have hback : a ∈ next '' s := by
      by_contra hnot
      have hentry : a ∈ s \ next '' s := ⟨ha, hnot⟩
      rw [hentries] at hentry
      exact hoff ⟨0, n.zero_le, hentry.symm⟩
    obtain ⟨b, hb, rfl⟩ := hback
    refine ⟨b, ⟨hb, ?_⟩, rfl⟩
    rintro ⟨i, hi, rfl⟩
    rw [← iterate_succ_apply' next] at ha hoff
    rcases Nat.lt_or_eq_of_le hi with hlt | rfl
    · exact hoff ⟨i + 1, hlt, rfl⟩
    · exact hout ha
  refine ⟨n, hlast, fun a => ⟨fun ha => ?_, ?_⟩⟩
  · by_contra hoff
    exact (hrest ▸ (⟨ha, hoff⟩ : a ∈ s \ _) : a ∈ (∅ : Set α))
  · rintro ⟨i, hi, rfl⟩
    exact hin i hi

end Trun
