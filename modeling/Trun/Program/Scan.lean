import Mathlib.Data.List.Nodup

/-!
# The first item that is taken

A scan looks at the items of a list one after the other, each in the state that those before it
leave, and stops at the first that it takes.
-/

namespace Trun

universe u v

variable {σ : Type u} {α : Type v} (pass : σ → α → σ) (takes : σ → α → Prop)

/-- The item at which the scan stops. -/
def choose [∀ state item, Decidable (takes state item)] : σ → List α → Option α
  | _, [] => none
  | state, item :: rest => if takes state item then some item else choose (pass state item) rest

/-- The state in which the scan looks at the item, if it does not stop before. -/
def stateAt [DecidableEq α] (start : σ) (order : List α) (item : α) : σ :=
  (order.takeWhile (· ≠ item)).foldl pass start

section StateAt

variable [DecidableEq α] {pass}

@[simp] theorem stateAt_head (start : σ) (item : α) (rest : List α) :
    stateAt pass start (item :: rest) item = start := by
  simp [stateAt]

theorem stateAt_tail (start : σ) {first item : α} (rest : List α) (hne : item ≠ first) :
    stateAt pass start (first :: rest) item = stateAt pass (pass start first) rest item := by
  simp [stateAt, hne.symm]

end StateAt

variable [DecidableEq α] [∀ state item, Decidable (takes state item)] {pass takes}

theorem choose_eq_none {start : σ} {order : List α} (hnodup : order.Nodup) :
    choose pass takes start order = none ↔
      ∀ item ∈ order, ¬takes (stateAt pass start order item) item := by
  induction order generalizing start with
  | nil => simp [choose]
  | cons first rest ih =>
      obtain ⟨hfirst, hrest⟩ := List.nodup_cons.mp hnodup
      rw [choose, List.forall_mem_cons, stateAt_head]
      by_cases htakes : takes start first
      · simp [htakes]
      · rw [if_neg htakes, ih hrest]
        simp only [htakes, not_false_eq_true, true_and]
        refine forall₂_congr fun item hmem => ?_
        rw [stateAt_tail start rest (ne_of_mem_of_not_mem hmem hfirst)]

theorem choose_eq_some {start : σ} {order : List α} (hnodup : order.Nodup) {chosen : α}
    (hchoose : choose pass takes start order = some chosen) :
    ∃ front back, order = front ++ chosen :: back ∧
      takes (stateAt pass start order chosen) chosen ∧
      ∀ item ∈ front, ¬takes (stateAt pass start order item) item := by
  induction order generalizing start with
  | nil => simp [choose] at hchoose
  | cons first rest ih =>
      obtain ⟨hfirst, hrest⟩ := List.nodup_cons.mp hnodup
      rw [choose] at hchoose
      by_cases htakes : takes start first
      · rw [if_pos htakes] at hchoose
        obtain rfl := Option.some.inj hchoose
        exact ⟨[], rest, rfl, by rwa [stateAt_head], fun _ hmem => absurd hmem List.not_mem_nil⟩
      · rw [if_neg htakes] at hchoose
        obtain ⟨front, back, rfl, hchosen, hbefore⟩ := ih hrest hchoose
        have hne : chosen ≠ first :=
          ne_of_mem_of_not_mem (List.mem_append_right _ (List.mem_cons_self ..)) hfirst
        refine ⟨first :: front, back, rfl, by rwa [stateAt_tail _ _ hne], ?_⟩
        rw [List.forall_mem_cons, stateAt_head]
        refine ⟨htakes, fun item hmem => ?_⟩
        rw [stateAt_tail _ _ (ne_of_mem_of_not_mem (List.mem_append_left _ hmem) hfirst)]
        exact hbefore item hmem

/-- In a sorted list the scan stops at the first item of those that it would take. -/
theorem choose_first {start : σ} {order : List α} (hnodup : order.Nodup)
    {before : α → α → Prop} (hsorted : order.Pairwise before) {chosen : α}
    (hchoose : choose pass takes start order = some chosen) :
    chosen ∈ order ∧ takes (stateAt pass start order chosen) chosen ∧
      ∀ item ∈ order, takes (stateAt pass start order item) item →
        item = chosen ∨ before chosen item := by
  obtain ⟨front, back, horder, hchosen, hskipped⟩ := choose_eq_some hnodup hchoose
  refine ⟨horder ▸ List.mem_append_right _ (List.mem_cons_self ..), hchosen,
    fun item hmem htakes => ?_⟩
  rw [horder] at hmem hsorted
  rcases List.mem_append.mp hmem with hfront | hrest
  · exact absurd htakes (hskipped item hfront)
  · rcases List.mem_cons.mp hrest with rfl | hback
    · exact .inl rfl
    · exact .inr ((List.pairwise_cons.mp (List.pairwise_append.mp hsorted).2.1).1 item hback)

end Trun
