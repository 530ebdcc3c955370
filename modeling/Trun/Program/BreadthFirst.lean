import Mathlib.Data.Set.Card
import Mathlib.Order.Lattice.Nat
import Trun.Program.Exploring

/-!
# Breadth first

A search that visits what it has found in the order in which it found it comes
to the items by their distance from the root.  Whenever it stops, it has visited
a nearest part of what can be reached.
-/

namespace Trun

universe u

variable {α : Type u}

/-- A path of so many steps. -/
inductive Path (next : α → List α) (root : α) : ℕ → α → Prop where
  | refl : Path next root 0 root
  | step {length : ℕ} {x y : α} (front : Path next root length x) (hy : y ∈ next x) :
      Path next root (length + 1) y

/-- The length of a shortest path. -/
noncomputable def distanceFrom (next : α → List α) (root x : α) : ℕ :=
  sInf {length | Path next root length x}

/-- So many of the items that can be reached, and the nearest ones. -/
structure NearestPart (next : α → List α) (root : α) (limit : ℕ) (kept : List α) : Prop where
  length : kept.length = min limit {x | Leads next root x}.ncard
  reached : ∀ x ∈ kept, Leads next root x
  nearest : ∀ x ∈ kept, ∀ y, Leads next root y → y ∉ kept →
    distanceFrom next root x ≤ distanceFrom next root y

section Paths

variable {next : α → List α} {root x y : α} {length : ℕ} {visited queue : List α}

theorem leads_iff_path : Leads next root x ↔ ∃ length, Path next root length x := by
  constructor
  · intro hleads
    induction hleads with
    | refl => exact ⟨0, .refl⟩
    | tail _ hstep ih =>
        obtain ⟨length, hpath⟩ := ih
        exact ⟨length + 1, hpath.step hstep⟩
  · rintro ⟨length, hpath⟩
    induction hpath with
    | refl => exact .refl
    | step _ hstep ih => exact ih.tail hstep

theorem Path.distance_le (hpath : Path next root length x) : distanceFrom next root x ≤ length :=
  Nat.sInf_le hpath

theorem path_distance (hleads : Leads next root x) :
    Path next root (distanceFrom next root x) x :=
  Nat.sInf_mem (leads_iff_path.mp hleads)

theorem distance_succ_le (hleads : Leads next root x) (hy : y ∈ next x) :
    distanceFrom next root y ≤ distanceFrom next root x + 1 :=
  ((path_distance hleads).step hy).distance_le

/-- A path to an item that was not visited passes the queue, and ends there or goes on. -/
theorem Exploration.passes_queue (h : Exploration next root visited queue)
    (hpath : Path next root length x) (hx : x ∉ visited) :
    ∃ y ∈ queue, distanceFrom next root y ≤ length ∧
      (y = x ∨ distanceFrom next root y + 1 ≤ length) := by
  induction hpath with
  | refl =>
      have hroot := (List.mem_append.mp h.source).resolve_left hx
      exact ⟨root, hroot, Path.refl.distance_le, .inl rfl⟩
  | @step length x y hfront hy ih =>
      by_cases hvisited : x ∈ visited
      · have hqueue := (List.mem_append.mp (h.closed x hvisited y hy)).resolve_left hx
        exact ⟨y, hqueue, (hfront.step hy).distance_le, .inl rfl⟩
      · obtain ⟨z, hz, hle, -⟩ := ih hvisited
        exact ⟨z, hz, Nat.le_succ_of_le hle, .inr (Nat.succ_le_succ hle)⟩

end Paths

/-- The items that a search has visited are not farther away than those in its queue, which stand
in the order of their distances. -/
structure Breadth (next : α → List α) (root : α) (visited queue : List α) : Prop extends
    Exploration next root visited queue where
  before : ∀ x ∈ visited, ∀ y ∈ queue, distanceFrom next root x ≤ distanceFrom next root y
  sorted : queue.Pairwise fun x y => distanceFrom next root x ≤ distanceFrom next root y
  close : ∀ x ∈ queue, ∀ y ∈ queue, distanceFrom next root y ≤ distanceFrom next root x + 1

namespace Breadth

variable {next : α → List α} {root x : α} {visited queue new : List α}

theorem start (next : α → List α) (root : α) : Breadth next root [] [root] where
  toExploration := Exploration.start next root
  before := nofun
  sorted := List.pairwise_singleton ..
  close := by
    intro x hx y hy
    rw [List.mem_singleton.mp hx, List.mem_singleton.mp hy]
    exact Nat.le_succ _

/-- What is found at an item is one step farther away. -/
theorem distance_new (h : Breadth next root visited (x :: queue))
    (hnew : ∀ y ∈ new, y ∈ next x ∧ y ∉ visited ++ x :: queue) :
    ∀ y ∈ new, distanceFrom next root y = distanceFrom next root x + 1 := by
  intro y hy
  obtain ⟨hstep, hfound⟩ := hnew y hy
  have hleads : Leads next root x :=
    h.reached x (List.mem_append_right _ (List.mem_cons_self ..))
  apply le_antisymm (distance_succ_le hleads hstep)
  obtain ⟨z, hz, -, hz'⟩ := h.passes_queue (path_distance (hleads.tail hstep))
    fun hvisited => hfound (List.mem_append_left _ hvisited)
  have hfirst : distanceFrom next root x ≤ distanceFrom next root z := by
    rcases List.mem_cons.mp hz with rfl | hrest
    · exact le_refl _
    · exact (List.pairwise_cons.mp h.sorted).1 z hrest
  rcases hz' with rfl | hlt
  · exact absurd (List.mem_append_right _ hz) hfound
  · omega

/-- The search visits the first item of its queue. -/
theorem visit (h : Breadth next root visited (x :: queue)) (hnodup : new.Nodup)
    (hnew : ∀ y, y ∈ new ↔ y ∈ next x ∧ y ∉ visited ++ x :: queue) :
    Breadth next root (x :: visited) (queue ++ new) := by
  have hfar := h.distance_new fun y hy => (hnew y).mp hy
  obtain ⟨hsorted, hrest⟩ := List.pairwise_cons.mp h.sorted
  have hself : x ∈ x :: queue := List.mem_cons_self ..
  have hclose : ∀ y ∈ queue ++ new, distanceFrom next root x ≤ distanceFrom next root y ∧
      distanceFrom next root y ≤ distanceFrom next root x + 1 := by
    intro y hy
    rcases List.mem_append.mp hy with hold | hnew
    · exact ⟨hsorted y hold, h.close x hself y (List.mem_cons_of_mem _ hold)⟩
    · rw [hfar y hnew]
      exact ⟨Nat.le_succ _, le_refl _⟩
  constructor
  · exact (h.toExploration.visit hnodup hnew).perm List.perm_append_comm
  · intro y hy z hz
    rcases List.mem_cons.mp hy with rfl | hvisited
    · exact (hclose z hz).1
    · exact (h.before y hvisited x hself).trans (hclose z hz).1
  · rw [List.pairwise_append]
    refine ⟨hrest, List.pairwise_of_forall_mem_list fun y hy z hz => ?_, fun y hy z hz => ?_⟩
    · rw [hfar y hy, hfar z hz]
    · rw [hfar z hz]
      exact (hclose y (List.mem_append_left _ hy)).2
  · intro y hy z hz
    exact (hclose z hz).2.trans (Nat.succ_le_succ (hclose y hy).1)

/-- What was visited is nearest. -/
theorem nearest (h : Breadth next root visited queue) {y : α} (hx : x ∈ visited)
    (hleads : Leads next root y) (hy : y ∉ visited) :
    distanceFrom next root x ≤ distanceFrom next root y := by
  obtain ⟨z, hz, hle, -⟩ := h.passes_queue (path_distance hleads) hy
  exact (h.before x hx z hz).trans hle

/-- A search that has used up its queue, or visited as many items as it may. -/
theorem nearestPart (h : Breadth next root visited queue) {nodes : Finset α} (hroot : root ∈ nodes)
    (hnodes : ∀ y ∈ nodes, ∀ z ∈ next y, z ∈ nodes) {limit : ℕ} (hle : visited.length ≤ limit)
    (hend : queue = [] ∨ visited.length = limit) : NearestPart next root limit visited := by
  classical
  have hreached : ∀ y ∈ visited, Leads next root y := fun y hy =>
    h.reached y (List.mem_append_left _ hy)
  have hcard : visited.length = (visited.toFinset : Set α).ncard := by
    rw [Set.ncard_coe_finset, List.toFinset_card_of_nodup (List.nodup_append.mp h.nodup).1]
  have hsubset : (visited.toFinset : Set α) ⊆ {y | Leads next root y} := fun y hy =>
    hreached y (List.mem_toFinset.mp hy)
  have hfinite : {y | Leads next root y}.Finite := by
    apply nodes.finite_toSet.subset
    intro y hleads
    exact leads_mem hroot hnodes hleads
  refine ⟨?_, hreached, fun y hy z hleads hz => h.nearest hy hleads hz⟩
  rcases hend with rfl | hlimit
  · have hall : (visited.toFinset : Set α) = {y | Leads next root y} := by
      ext y
      rw [SetLike.mem_coe, List.mem_toFinset]
      exact h.mem_visited y
    rw [← hall, ← hcard, min_eq_right hle]
  · have hmany := Set.ncard_le_ncard hsubset hfinite
    rw [← hcard] at hmany
    rw [← hlimit, min_eq_left hmany]

end Breadth

theorem NearestPart.perm {next : α → List α} {root : α} {limit : ℕ} {kept other : List α}
    (h : NearestPart next root limit kept) (hperm : kept.Perm other) :
    NearestPart next root limit other where
  length := hperm.length_eq.symm.trans h.length
  reached x hx := h.reached x (hperm.mem_iff.mpr hx)
  nearest x hx y hy hleft := h.nearest x (hperm.mem_iff.mpr hx) y hy
    fun hkept => hleft (hperm.mem_iff.mp hkept)

end Trun
