import Mathlib.Data.Finset.Card
import Mathlib.Data.Fintype.EquivFin
import Mathlib.Data.Fintype.Sets
import Mathlib.Logic.Relation
import Mathlib.Order.WellFounded

/-!
# Exploring a graph

A search that visits what it has found, one item after the other, and notes
the successors of each that it has not found before.  In whatever order it
does so, it visits every item that can be reached, and none twice.
-/

namespace Trun

universe u

variable {α : Type u}

/-- There is a path along successors. -/
abbrev Leads (next : α → List α) : α → α → Prop := Relation.ReflTransGen fun x y => y ∈ next x

/-- Paths stay in a set that is closed. -/
theorem leads_mem {next : α → List α} {nodes : Finset α} {root x : α} (hroot : root ∈ nodes)
    (hnodes : ∀ y ∈ nodes, ∀ z ∈ next y, z ∈ nodes) (hleads : Leads next root x) : x ∈ nodes := by
  induction hleads with
  | refl => exact hroot
  | tail _ hstep ih => exact hnodes _ ih _ hstep

/-- No path along successors leads back to where it starts. -/
def Acyclic (next : α → List α) : Prop :=
  ∀ x, ¬Relation.TransGen (fun x y => y ∈ next x) x x

/-- A graph has no cycle where successors rank lower. -/
theorem Acyclic.of_rank {next : α → List α} (rank : α → ℕ)
    (hrank : ∀ x, ∀ y ∈ next x, rank y < rank x) : Acyclic next := by
  have hpath : ∀ {x y}, Relation.TransGen (fun x y => y ∈ next x) x y → rank y < rank x := by
    intro x y hpath
    induction hpath with
    | single hstep => exact hrank _ _ hstep
    | tail _ hstep ih => exact (hrank _ _ hstep).trans ih
  exact fun x hcycle => lt_irrefl _ (hpath hcycle)

/-- An item below which there is no infinite path. -/
abbrev Grounded (next : α → List α) : α → Prop := Acc fun y x => y ∈ next x

theorem Grounded.not_leads {next : α → List α} {x y : α} (h : Grounded next x) (hy : y ∈ next x) :
    ¬Leads next y x := by
  induction h generalizing y with
  | intro x _ ih =>
      intro hleads
      -- the path from `y` to `x` goes on to `y`
      cases Relation.ReflTransGen.cases_head hleads with
      | inl heq =>
          subst heq
          exact ih y hy hy Relation.ReflTransGen.refl
      | inr hstep =>
          obtain ⟨z, hz, hrest⟩ := hstep
          exact ih y hy hz (hrest.tail hy)

/-- In a finite graph without cycles every item is grounded. -/
theorem Acyclic.grounded {next : α → List α} (hacyclic : Acyclic next) {nodes : Finset α}
    (hnodes : ∀ x ∈ nodes, ∀ y ∈ next x, y ∈ nodes) {x : α} (hx : x ∈ nodes) :
    Grounded next x := by
  let below : nodes → nodes → Prop := fun y x => Relation.TransGen (fun x y => y ∈ next x) x.1 y.1
  have hirrefl : Std.Irrefl below := ⟨fun x => hacyclic x.1⟩
  have htrans : IsTrans nodes below := ⟨fun _ _ _ hzy hyx => hyx.trans hzy⟩
  have hwf : WellFounded below := Finite.wellFounded_of_trans_of_irrefl below
  have hacc : ∀ x : nodes, Grounded next x.1 := by
    intro x
    induction x using hwf.induction with
    | _ x ih =>
        constructor
        intro y hy
        exact ih ⟨y, hnodes x.1 x.2 y hy⟩ (.single hy)
  exact hacc ⟨x, hx⟩

/-- The search has visited some items and found others. -/
structure Exploration (next : α → List α) (root : α) (visited found : List α) : Prop where
  nodup : (visited ++ found).Nodup
  source : root ∈ visited ++ found
  reached : ∀ x ∈ visited ++ found, Leads next root x
  closed : ∀ x ∈ visited, ∀ y ∈ next x, y ∈ visited ++ found

namespace Exploration

variable {next : α → List α} {root x : α} {visited found : List α}

theorem start (next : α → List α) (root : α) : Exploration next root [] [root] where
  nodup := List.nodup_singleton root
  source := List.mem_singleton_self root
  reached := by
    intro x hx
    rw [List.mem_singleton.mp hx]
  closed := nofun

/-- The search visits an item and notes the successors that it had not found yet. -/
theorem visit (h : Exploration next root visited (x :: found)) {new : List α}
    (hnodup : new.Nodup)
    (hnew : ∀ y, y ∈ new ↔ y ∈ next x ∧ y ∉ visited ++ x :: found) :
    Exploration next root (x :: visited) (new ++ found) := by
  have hmem : ∀ y, y ∈ x :: visited ++ (new ++ found) ↔ y ∈ visited ++ x :: found ∨ y ∈ new := by
    intro y
    simp only [List.mem_append, List.mem_cons]
    tauto
  have hself : x ∈ visited ++ x :: found := List.mem_append_right _ (List.mem_cons_self ..)
  constructor
  · have hold : (x :: visited ++ found).Nodup :=
      List.nodup_middle.mp h.nodup
    have hperm : (x :: visited ++ (new ++ found)).Perm (new ++ (x :: visited ++ found)) := by
      rw [← List.append_assoc, ← List.append_assoc]
      exact List.Perm.append_right _ List.perm_append_comm
    rw [hperm.nodup_iff, List.nodup_append]
    refine ⟨hnodup, hold, ?_⟩
    rintro y hy _ hy' rfl
    apply ((hnew y).mp hy).2
    simp only [List.mem_append, List.mem_cons] at hy' ⊢
    tauto
  · exact (hmem root).mpr (.inl h.source)
  · intro y hy
    rcases (hmem y).mp hy with hold | hnew'
    · exact h.reached y hold
    · exact (h.reached x hself).tail ((hnew y).mp hnew').1
  · intro y hy z hz
    rw [hmem]
    rcases List.mem_cons.mp hy with rfl | hvisited
    · by_cases hold : z ∈ visited ++ y :: found
      · exact .inl hold
      · exact .inr ((hnew z).mpr ⟨hz, hold⟩)
    · exact .inl (h.closed y hvisited z hz)

/-- The order of what was found does not matter. -/
theorem perm (h : Exploration next root visited found) {other : List α}
    (hperm : found.Perm other) : Exploration next root visited other := by
  have hall : (visited ++ found).Perm (visited ++ other) := hperm.append_left visited
  constructor
  · exact hall.nodup_iff.mp h.nodup
  · exact hall.mem_iff.mp h.source
  · exact fun x hx => h.reached x (hall.mem_iff.mpr hx)
  · exact fun x hx y hy => hall.mem_iff.mp (h.closed x hx y hy)

/-- Once nothing is left to visit, the search has visited what can be reached. -/
theorem mem_visited (h : Exploration next root visited []) (x : α) :
    x ∈ visited ↔ Leads next root x := by
  have hroot : root ∈ visited := by simpa using h.source
  constructor
  · intro hx
    exact h.reached x (List.mem_append_left _ hx)
  · intro hleads
    induction hleads with
    | refl => exact hroot
    | tail _ hstep ih => simpa using h.closed _ ih _ hstep

/-- Visits inside of a finite set leave room for one more as long as something was found. -/
theorem length_lt (h : Exploration next root visited (x :: found)) {nodes : Finset α}
    (hroot : root ∈ nodes) (hnodes : ∀ y ∈ nodes, ∀ z ∈ next y, z ∈ nodes) :
    visited.length < nodes.card := by
  classical
  have hsub : (visited ++ x :: found).toFinset ⊆ nodes := by
    intro y hy
    exact leads_mem hroot hnodes (h.reached y (List.mem_toFinset.mp hy))
  have hcard := Finset.card_le_card hsub
  rw [List.toFinset_card_of_nodup h.nodup, List.length_append, List.length_cons] at hcard
  omega

end Exploration

end Trun
