import Mathlib.Data.List.Basic
import Mathlib.Order.Bounds.Basic
import Mathlib.Algebra.Order.Group.Nat

/-!
# Edits of one character and alignments

A text is edited one character at a time.  An alignment pairs the characters of two texts in
order and keeps those that are the same; the cheapest alignments are the shortest ways from one
text to the other, and they are computed from the cheapest alignments of shorter texts.
-/

namespace Trun.Program

universe u

variable {α : Type u} {a b c : List α} {m n : ℕ}

/-- One character is inserted, deleted or substituted. -/
inductive Edit : List α → List α → Prop
  | insert (y : α) (a : List α) : Edit a (y :: a)
  | delete (x : α) (a : List α) : Edit (x :: a) a
  | substitute (x y : α) (a : List α) : Edit (x :: a) (y :: a)
  | cons (x : α) {a b : List α} : Edit a b → Edit (x :: a) (x :: b)

/-- Edits one after the other. -/
inductive Edits : ℕ → List α → List α → Prop
  | refl (a : List α) : Edits 0 a a
  | step {n : ℕ} {a b c : List α} : Edit a b → Edits n b c → Edits (n + 1) a c

/-- The texts are aligned at a cost, where only the characters that are `same` are kept. -/
inductive Aligned (same : α → α → Prop) : List α → List α → ℕ → Prop
  | nil : Aligned same [] [] 0
  | keep {x y : α} {a b : List α} {n : ℕ} :
      same x y → Aligned same a b n → Aligned same (x :: a) (y :: b) n
  | substitute (x y : α) {a b : List α} {n : ℕ} :
      Aligned same a b n → Aligned same (x :: a) (y :: b) (n + 1)
  | insert (y : α) {a b : List α} {n : ℕ} :
      Aligned same a b n → Aligned same a (y :: b) (n + 1)
  | delete (x : α) {a b : List α} {n : ℕ} :
      Aligned same a b n → Aligned same (x :: a) b (n + 1)

theorem Edits.cons (x : α) (hedits : Edits n a b) : Edits n (x :: a) (x :: b) := by
  induction hedits with
  | refl a => exact .refl _
  | step hedit _ ih => exact .step (.cons x hedit) ih

/-! ## Alignments and edits -/

namespace Aligned

/-- What an alignment does, from left to right. -/
theorem edits (haligned : Aligned Eq a b n) : Edits n a b := by
  induction haligned with
  | nil => exact .refl []
  | keep hsame _ ih => exact hsame ▸ ih.cons _
  | substitute x y _ ih => exact .step (.substitute x y _) (ih.cons y)
  | insert y _ ih => exact .step (.insert y _) (ih.cons y)
  | delete x _ ih => exact .step (.delete x _) ih

theorem refl (a : List α) : Aligned Eq a a 0 := by
  induction a with
  | nil => exact .nil
  | cons x a ih => exact .keep rfl ih

/-- An edit before an alignment costs at most one more. -/
theorem of_edit (hedit : Edit a b) (haligned : Aligned Eq b c n) :
    ∃ m ≤ n + 1, Aligned Eq a c m := by
  induction haligned generalizing a with
  | nil =>
      cases hedit with
      | delete x => exact ⟨1, le_rfl, .delete x .nil⟩
  | @keep x y b c n hsame haligned ih =>
      cases hedit with
      | insert => exact ⟨n + 1, le_rfl, .insert y haligned⟩
      | delete z => exact ⟨n + 1, le_rfl, .delete z (.keep hsame haligned)⟩
      | substitute z => exact ⟨n + 1, le_rfl, .substitute z y haligned⟩
      | cons _ hedit =>
          obtain ⟨m, hm, h⟩ := ih hedit
          exact ⟨m, hm, .keep hsame h⟩
  | @substitute x y b c n haligned ih =>
      cases hedit with
      | insert => exact ⟨n + 1, by omega, .insert y haligned⟩
      | delete z => exact ⟨n + 1 + 1, le_rfl, .delete z (.substitute x y haligned)⟩
      | substitute z => exact ⟨n + 1, by omega, .substitute z y haligned⟩
      | cons _ hedit =>
          obtain ⟨m, hm, h⟩ := ih hedit
          exact ⟨m + 1, by omega, .substitute x y h⟩
  | @insert y b c n _ ih =>
      obtain ⟨m, hm, h⟩ := ih hedit
      exact ⟨m + 1, by omega, .insert y h⟩
  | @delete x b c n haligned ih =>
      cases hedit with
      | insert => exact ⟨n, by omega, haligned⟩
      | delete z => exact ⟨n + 1 + 1, le_rfl, .delete z (.delete x haligned)⟩
      | substitute z => exact ⟨n + 1, by omega, .delete z haligned⟩
      | cons _ hedit =>
          obtain ⟨m, hm, h⟩ := ih hedit
          exact ⟨m + 1, by omega, .delete x h⟩

theorem of_edits (hedits : Edits n a b) : ∃ m ≤ n, Aligned Eq a b m := by
  induction hedits with
  | refl a => exact ⟨0, le_rfl, refl a⟩
  | step hedit _ ih =>
      obtain ⟨m, hm, haligned⟩ := ih
      obtain ⟨k, hk, h⟩ := of_edit hedit haligned
      exact ⟨k, by omega, h⟩

variable {same same' : α → α → Prop}

theorem mono (hsame : ∀ x y, same x y → same' x y) (haligned : Aligned same a b n) :
    Aligned same' a b n := by
  induction haligned with
  | nil => exact .nil
  | keep h _ ih => exact .keep (hsame _ _ h) ih
  | substitute x y _ ih => exact .substitute x y ih
  | insert y _ ih => exact .insert y ih
  | delete x _ ih => exact .delete x ih

theorem append {a' b' : List α} (haligned : Aligned same a b m) (hrest : Aligned same a' b' n) :
    Aligned same (a ++ a') (b ++ b') (m + n) := by
  induction haligned with
  | nil => simpa using hrest
  | keep hsame _ ih => exact .keep hsame ih
  | substitute x y _ ih => exact Nat.add_right_comm .. ▸ .substitute x y ih
  | insert y _ ih => exact Nat.add_right_comm .. ▸ .insert y ih
  | delete x _ ih => exact Nat.add_right_comm .. ▸ .delete x ih

/-- Alignments read from right to left. -/
theorem reverse (haligned : Aligned same a b n) : Aligned same a.reverse b.reverse n := by
  induction haligned with
  | nil => exact .nil
  | keep hsame _ ih =>
      rw [List.reverse_cons, List.reverse_cons]
      exact ih.append (.keep hsame .nil)
  | substitute x y _ ih =>
      rw [List.reverse_cons, List.reverse_cons]
      exact ih.append (.substitute x y .nil)
  | @insert y a b _ _ ih =>
      rw [List.reverse_cons, ← List.append_nil a.reverse]
      exact ih.append (.insert y .nil)
  | @delete x a b _ _ ih =>
      rw [List.reverse_cons, ← List.append_nil b.reverse]
      exact ih.append (.delete x .nil)

end Aligned

/-! ## The cheapest alignment -/

section EditCost

variable (same : α → α → Prop) [DecidableRel same]

/-- The costs for a text with one more character in front, from those for the text. -/
def editCostRow (x : α) (costs : List α → ℕ) : List α → ℕ
  | [] => costs [] + 1
  | y :: b =>
      min (min (editCostRow x costs b + 1) (costs (y :: b) + 1))
        (costs b + if same x y then 0 else 1)

/-- The cost of the cheapest alignment. -/
def editCost : List α → List α → ℕ
  | [] => List.length
  | x :: a => editCostRow same x (editCost a)

@[simp] theorem editCost_nil (b : List α) : editCost same [] b = b.length := rfl

@[simp] theorem editCost_nil_right (a : List α) : editCost same a [] = a.length := by
  induction a with
  | nil => rfl
  | cons x a ih => exact congrArg (· + 1) ih

theorem editCost_cons (x y : α) (a b : List α) :
    editCost same (x :: a) (y :: b) =
      min (min (editCost same (x :: a) b + 1) (editCost same a (y :: b) + 1))
        (editCost same a b + if same x y then 0 else 1) := rfl

/-- Some alignment costs no more. -/
theorem aligned_editCost (a b : List α) : Aligned same a b (editCost same a b) := by
  induction a generalizing b with
  | nil =>
      induction b with
      | nil => exact .nil
      | cons y b ih => exact .insert y ih
  | cons x a iha =>
      induction b with
      | nil => exact .delete x (iha [])
      | cons y b ihb =>
          rw [editCost_cons]
          rcases min_choice (min (editCost same (x :: a) b + 1) (editCost same a (y :: b) + 1))
            (editCost same a b + if same x y then 0 else 1) with h | h <;> rw [h]
          · rcases min_choice (editCost same (x :: a) b + 1)
              (editCost same a (y :: b) + 1) with h | h <;> rw [h]
            · exact .insert y ihb
            · exact .delete x (iha (y :: b))
          · split <;> rename_i hsame
            · exact .keep hsame (iha b)
            · exact .substitute x y (iha b)

variable {same}

theorem editCost_le_cons_left (x : α) (a b : List α) :
    editCost same (x :: a) b ≤ editCost same a b + 1 := by
  cases b with
  | nil => simp
  | cons y b => exact (min_le_left ..).trans (min_le_right ..)

theorem editCost_le_cons_right (y : α) (a b : List α) :
    editCost same a (y :: b) ≤ editCost same a b + 1 := by
  cases a with
  | nil => simp
  | cons x a => exact (min_le_left ..).trans (min_le_left ..)

/-- No alignment costs less. -/
theorem Aligned.editCost_le (haligned : Aligned same a b n) : editCost same a b ≤ n := by
  induction haligned with
  | nil => exact le_rfl
  | keep hsame _ ih =>
      refine (min_le_right ..).trans ?_
      rwa [if_pos hsame]
  | substitute x y _ ih =>
      refine (min_le_right ..).trans ?_
      split <;> omega
  | insert y _ ih => exact (editCost_le_cons_right y ..).trans (Nat.succ_le_succ ih)
  | delete x _ ih => exact (editCost_le_cons_left x ..).trans (Nat.succ_le_succ ih)

theorem editCost_reverse (a b : List α) :
    editCost same a.reverse b.reverse = editCost same a b := by
  apply le_antisymm
  · exact (aligned_editCost same a b).reverse.editCost_le
  · have haligned := (aligned_editCost same a.reverse b.reverse).reverse
    rw [List.reverse_reverse, List.reverse_reverse] at haligned
    exact haligned.editCost_le

/-- The cost from the costs of the texts without their last characters. -/
theorem editCost_concat (x y : α) (a b : List α) :
    editCost same (a ++ [x]) (b ++ [y]) =
      min (min (editCost same (a ++ [x]) b + 1) (editCost same a (b ++ [y]) + 1))
        (editCost same a b + if same x y then 0 else 1) := by
  have h := editCost_cons same x y a.reverse b.reverse
  rw [← List.reverse_concat, ← List.reverse_concat] at h
  simpa only [editCost_reverse] using h

theorem editCost_le_max (a b : List α) : editCost same a b ≤ max a.length b.length := by
  induction a generalizing b with
  | nil => simp
  | cons x a ih =>
      cases b with
      | nil => simp
      | cons y b =>
          refine (min_le_right ..).trans ?_
          have hle := ih b
          rw [List.length_cons, List.length_cons]
          split <;> omega

end EditCost

section Levenshtein

variable [DecidableEq α]

/-- The fewest edits that lead from one text to the other. -/
def levenshtein (a b : List α) : ℕ := editCost Eq a b

theorem isLeast_levenshtein (a b : List α) : IsLeast {n | Edits n a b} (levenshtein a b) := by
  refine ⟨(aligned_editCost Eq a b).edits, fun n hedits => ?_⟩
  obtain ⟨m, hm, haligned⟩ := Aligned.of_edits hedits
  exact haligned.editCost_le.trans hm

theorem levenshtein_eq_zero_iff (a b : List α) : levenshtein a b = 0 ↔ a = b := by
  constructor
  · intro hzero
    have hedits := (isLeast_levenshtein a b).1
    rw [hzero] at hedits
    cases hedits
    rfl
  · rintro rfl
    exact Nat.le_zero.mp (Aligned.refl a).editCost_le

end Levenshtein

end Trun.Program
