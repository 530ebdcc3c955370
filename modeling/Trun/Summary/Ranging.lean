import Trun.Program.Successors
import Trun.Python.OrderedSet

/-!
# Ranges in the summary

`_ranging_attributes` looks at the sizes of two set differences to tell whether the values of a
parameter make up a range without gaps.
-/

namespace Trun

open Function

universe u

variable {α : Type u} [DecidableEq α]

namespace Summary

def rangingAttributes (nextInEnumeration : α → α) (attributes : OrderedSet α) :
    Option α × Option α :=
  let nextAttributes := OrderedSet.ofList (attributes.elems.map nextInEnumeration)
  let inFirst := attributes.elems.filter (· ∉ nextAttributes)
  let inSecond := nextAttributes.elems.filter (· ∉ attributes)
  if inFirst.length = 1 ∧ inSecond.length = 1 then
    match attributes.elems.find? fun x => [nextInEnumeration x] = inSecond with
    | some x => (inFirst.head?, some x)
    | none => (none, none)
  else (none, none)

variable {next : α → α} {attributes : OrderedSet α} {first last : α}

omit [DecidableEq α] in
/-- A list without repetitions, known by its elements. -/
theorem eq_singleton_iff {xs : List α} (hnodup : xs.Nodup) (a : α) :
    xs = [a] ↔ ∀ b, b ∈ xs ↔ b = a := by
  constructor
  · rintro rfl b
    exact List.mem_singleton
  · intro hmem
    apply List.perm_singleton.mp
    apply (List.perm_ext_iff_of_nodup hnodup (List.nodup_singleton a)).mpr
    intro b
    rw [hmem, List.mem_singleton]

def valuesOf (attributes : OrderedSet α) : Set α := {a | a ∈ attributes}

theorem inFirst_eq_iff (next : α → α) (attributes : OrderedSet α) (first : α) :
    attributes.elems.filter (· ∉ OrderedSet.ofList (attributes.elems.map next)) = [first] ↔
      valuesOf attributes \ next '' valuesOf attributes = {first} := by
  rw [eq_singleton_iff (attributes.nodup.filter _), Set.ext_iff]
  apply forall_congr'
  intro b
  simp only [List.mem_filter, decide_eq_true_eq, OrderedSet.mem_ofList, List.mem_map,
    Set.mem_sdiff, Set.mem_image, Set.mem_singleton_iff]
  rfl

theorem inSecond_eq_iff (next : α → α) (attributes : OrderedSet α) (a : α) :
    (OrderedSet.ofList (attributes.elems.map next)).elems.filter (· ∉ attributes) = [a] ↔
      next '' valuesOf attributes \ valuesOf attributes = {a} := by
  rw [eq_singleton_iff ((OrderedSet.ofList _).nodup.filter _), Set.ext_iff]
  apply forall_congr'
  intro b
  simp only [List.mem_filter, ← OrderedSet.mem_def, decide_eq_true_eq, OrderedSet.mem_ofList,
    List.mem_map, Set.mem_sdiff, Set.mem_image, Set.mem_singleton_iff]
  rfl

/-- The values are returned with which the set begins and ends. -/
theorem rangingAttributes_eq_some_iff (hinjective : Injective next) :
    rangingAttributes next attributes = (some first, some last) ↔
      valuesOf attributes \ next '' valuesOf attributes = {first} ∧
        next '' valuesOf attributes \ valuesOf attributes = {next last} := by
  rw [← inFirst_eq_iff, ← inSecond_eq_iff]
  unfold rangingAttributes
  dsimp only
  constructor
  · intro hreturns
    split at hreturns
    · rename_i hsizes
      obtain ⟨⟨a, hfirst⟩, b, hsecond⟩ :=
        And.imp List.length_eq_one_iff.mp List.length_eq_one_iff.mp hsizes
      split at hreturns
      · rename_i x hfound
        rw [hfirst] at hreturns ⊢
        cases hreturns
        have hnext := List.find?_some hfound
        rw [decide_eq_true_eq] at hnext
        exact ⟨rfl, hnext.symm⟩
      · cases hreturns
    · cases hreturns
  · rintro ⟨hfirst, hsecond⟩
    have hlast : last ∈ attributes.elems := by
      have hexit : next last ∈ next '' valuesOf attributes \ valuesOf attributes :=
        ((inSecond_eq_iff next attributes _).mp hsecond).ge rfl
      obtain ⟨⟨a, ha, heq⟩, -⟩ := hexit
      exact hinjective heq ▸ ha
    have hfound : attributes.elems.find? (fun x => decide ([next x] = [next last])) =
        some last := by
      have hsome : (attributes.elems.find? fun x => decide ([next x] = [next last])).isSome := by
        rw [List.find?_isSome]
        exact ⟨last, hlast, decide_eq_true rfl⟩
      obtain ⟨x, hx⟩ := Option.isSome_iff_exists.mp hsome
      have hnext := List.find?_some hx
      rw [decide_eq_true_eq] at hnext
      rw [hx, hinjective (List.head_eq_of_cons_eq hnext)]
    rw [hfirst, hsecond, if_pos ⟨rfl, rfl⟩, hfound]
    rfl

/-- Both ends are returned exactly for a range, and then they are its ends. -/
theorem rangingAttributes_spec (hinjective : Injective next) (hacyclic : NoReturn next)
    (attributes : OrderedSet α) :
    ((∃ first last, rangingAttributes next attributes = (some first, some last)) ↔
        ∃ first last, IsRange next (valuesOf attributes) first last) ∧
      ∀ first last, IsRange next (valuesOf attributes) first last →
        rangingAttributes next attributes = (some first, some last) := by
  have hreturns : ∀ first last, IsRange next (valuesOf attributes) first last ↔
      rangingAttributes next attributes = (some first, some last) := by
    intro first last
    rw [rangingAttributes_eq_some_iff hinjective]
    constructor
    · intro hrange
      exact ⟨hrange.entries hacyclic, hrange.exits hacyclic hinjective⟩
    · rintro ⟨hentries, hexits⟩
      exact isRange_of_entries_exits hacyclic hinjective (List.finite_toSet _) hentries hexits
  constructor
  · simp only [hreturns]
  · exact fun first last => (hreturns first last).mp

theorem counted_up_is_range :
    rangingAttributes (· + 1) (OrderedSet.ofList [7, 5, 6]) = (some 5, some 7) := by
  have hacyclic : NoReturn (· + 1 : ℕ → ℕ) := by
    intro a n
    have hcount : ∀ k, (· + 1 : ℕ → ℕ)^[k] a = a + k := fun k => by
      induction k with
      | zero => rfl
      | succ k ih => rw [iterate_succ_apply', ih, Nat.add_assoc]
    rw [hcount]
    omega
  apply (rangingAttributes_spec (add_left_injective 1) hacyclic _).2
  refine ⟨2, rfl, fun a => ?_⟩
  have hmem : a ∈ valuesOf (OrderedSet.ofList [7, 5, 6]) ↔ a = 7 ∨ a = 5 ∨ a = 6 := by
    simp [valuesOf]
  rw [hmem]
  constructor
  · rintro (rfl | rfl | rfl)
    · exact ⟨2, le_rfl, rfl⟩
    · exact ⟨0, by decide, rfl⟩
    · exact ⟨1, by decide, rfl⟩
  · rintro ⟨i, hi, rfl⟩
    obtain rfl | rfl | rfl : i = 0 ∨ i = 1 ∨ i = 2 := by omega
    · exact .inr (.inl rfl)
    · exact .inr (.inr rfl)
    · exact .inl rfl

end Summary

end Trun
