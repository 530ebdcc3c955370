import Mathlib.Data.Finset.Card
import Trun.Program.Exploring

/-!
# Executing tasks in the order of their needs

Tasks are executed one after another, each at most once, and each only when
everything that it needs was there from the start or was executed with
success.  Where no further task can be executed, the executed ones are
determined by this alone.
-/

namespace Trun

universe u

variable {α : Type u}

/-- The executed tasks, each with its success. -/
inductive Executes (needs : α → List α) (offered there : α → Prop) : List (α × Bool) → Prop
  | nil : Executes needs offered there []
  | snoc {done : List (α × Bool)} {task : α} {success : Bool}
      (hdone : Executes needs offered there done) (hnew : task ∉ done.map Prod.fst)
      (hoffered : offered task) (hneeds : ∀ need ∈ needs task, there need ∨ (need, true) ∈ done) :
      Executes needs offered there (done ++ [(task, success)])

namespace Executes

variable {needs : α → List α} {offered there : α → Prop} {done : List (α × Bool)} {task : α}

theorem nodup (h : Executes needs offered there done) : (done.map Prod.fst).Nodup := by
  induction h with
  | nil => exact List.nodup_nil
  | snoc _ hnew _ _ ih =>
      rw [List.map_append, List.nodup_append]
      refine ⟨ih, List.nodup_singleton _, ?_⟩
      intro executed hexecuted last hlast heq
      apply hnew
      have hsame : executed = _ := heq.trans (List.mem_singleton.mp hlast)
      rw [hsame] at hexecuted
      exact hexecuted

theorem offered_of_mem (h : Executes needs offered there done) (hmem : task ∈ done.map Prod.fst) :
    offered task := by
  induction h with
  | nil => cases hmem
  | snoc _ _ hoffered _ ih =>
      rw [List.map_append, List.mem_append] at hmem
      cases hmem with
      | inl hbefore => exact ih hbefore
      | inr hlast =>
          rw [List.mem_singleton.mp hlast]
          exact hoffered

/-- What a task needs was there when it was executed. -/
theorem needs_before (h : Executes needs offered there done) {before after : List (α × Bool)}
    {success : Bool} (hdone : done = before ++ (task, success) :: after) :
    ∀ need ∈ needs task, there need ∨ (need, true) ∈ before := by
  induction h generalizing before after with
  | nil => simp at hdone
  | @snoc done last result _ hnew _ hneeds ih =>
      cases after using List.reverseRecOn with
      | nil =>
          obtain ⟨rfl, hlast⟩ := List.append_inj' hdone rfl
          cases hlast
          exact hneeds
      | append_singleton after final _ =>
          rw [← List.cons_append, ← List.append_assoc] at hdone
          obtain ⟨hdone, -⟩ := List.append_inj' hdone rfl
          exact ih hdone

theorem needs_of_mem (h : Executes needs offered there done) (hmem : task ∈ done.map Prod.fst) :
    ∀ need ∈ needs task, there need ∨ (need, true) ∈ done := by
  obtain ⟨⟨executed, success⟩, hentry, rfl⟩ := List.mem_map.mp hmem
  obtain ⟨before, after, hdone⟩ := List.append_of_mem hentry
  intro need hneed
  apply (h.needs_before hdone need hneed).imp_right
  intro hbefore
  rw [hdone]
  exact List.mem_append_left _ hbefore

/-- There are no more executions than tasks. -/
theorem length_le (h : Executes needs offered there done) {nodes : Finset α}
    (hnodes : ∀ task, offered task → task ∈ nodes) : done.length ≤ nodes.card := by
  classical
  calc done.length = (done.map Prod.fst).length := List.length_map .. |>.symm
    _ = (done.map Prod.fst).toFinset.card := (List.toFinset_card_of_nodup h.nodup).symm
    _ ≤ nodes.card := by
      apply Finset.card_le_card
      intro task hmem
      exact hnodes task (h.offered_of_mem (List.mem_toFinset.mp hmem))

/-- No further task can be executed. -/
def Exhausted (needs : α → List α) (offered there : α → Prop) (done : List (α × Bool)) : Prop :=
  ∀ task, offered task → (∀ need ∈ needs task, there need ∨ (need, true) ∈ done) →
    task ∈ done.map Prod.fst

theorem mem_iff (h : Executes needs offered there done)
    (hall : Exhausted needs offered there done) : task ∈ done.map Prod.fst ↔
      offered task ∧ ∀ need ∈ needs task, there need ∨ (need, true) ∈ done :=
  ⟨fun hmem => ⟨h.offered_of_mem hmem, h.needs_of_mem hmem⟩,
    fun hready => hall task hready.1 hready.2⟩

/-- Where all needs can be met, a task above which there is no endless chain of needs is there in
the end, unless it needs one whose execution failed, directly or through others. -/
theorem Exhausted.there_or_blocked (hall : Exhausted needs offered there done)
    (hneeds : ∀ task, offered task → ∀ need ∈ needs task, there need ∨ offered need)
    (hgrounded : Grounded needs task) (htask : there task ∨ offered task) :
    (there task ∨ (task, true) ∈ done) ∨
      ∃ failed, (failed, false) ∈ done ∧ Leads needs task failed := by
  induction hgrounded with
  | intro task _ ih =>
      cases htask with
      | inl hthere => exact .inl (.inl hthere)
      | inr hoffered =>
          by_cases hready : ∀ need ∈ needs task, there need ∨ (need, true) ∈ done
          · obtain ⟨⟨_, success⟩, hentry, rfl⟩ := List.mem_map.mp (hall task hoffered hready)
            cases success with
            | true => exact .inl (.inr hentry)
            | false => exact .inr ⟨_, hentry, .refl⟩
          · push Not at hready
            obtain ⟨need, hneed, hnot⟩ := hready
            cases ih need hneed (hneeds task hoffered need hneed) with
            | inl hmet => exact absurd hmet (not_or.mpr hnot)
            | inr hblocked =>
                obtain ⟨failed, hfailed, hleads⟩ := hblocked
                exact .inr ⟨failed, hfailed, hleads.head hneed⟩

end Executes

end Trun
