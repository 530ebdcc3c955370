import Mathlib.Data.List.Chain
import Trun.Program.Exploring

/-!
# Simple paths

Paths that meet no item twice.  Whatever can be reached is reached by one of
them, and in a graph without cycles every path is simple.
-/

namespace Trun

universe u

variable {α : Type u}

/-- A path from the root along successors that meets no item twice. -/
structure SimplePath (next : α → List α) (root : α) (path : List α) : Prop where
  chain : path.IsChain fun x y => y ∈ next x
  starts : path.head? = some root
  nodup : path.Nodup

section Paths

variable {next : α → List α} {root x y : α} {path front back : List α}

theorem SimplePath.singleton (root : α) : SimplePath next root [root] :=
  ⟨.singleton root, rfl, List.nodup_singleton root⟩

/-- The path up to any of its items. -/
theorem SimplePath.take (hpath : SimplePath next root (front ++ x :: back)) :
    SimplePath next root (front ++ [x]) := by
  have hsplit : front ++ x :: back = (front ++ [x]) ++ back := by simp
  rw [hsplit] at hpath
  have hstarts : (front ++ [x]).head? = ((front ++ [x]) ++ back).head? := by
    cases front <;> rfl
  exact ⟨hpath.chain.left_of_append, hstarts.trans hpath.starts, hpath.nodup.of_append_left⟩

theorem isChain_concat (hchain : path.IsChain fun x y => y ∈ next x)
    (hlast : path.getLast? = some x) (hy : y ∈ next x) :
    (path ++ [y]).IsChain fun x y => y ∈ next x := by
  apply hchain.append (.singleton y)
  intro z hz w hw
  rw [hlast] at hz
  cases hz
  cases hw
  exact hy

theorem SimplePath.concat (hpath : SimplePath next root path) (hlast : path.getLast? = some x)
    (hy : y ∈ next x) (hnew : y ∉ path) : SimplePath next root (path ++ [y]) where
  chain := isChain_concat hpath.chain hlast hy
  starts := by
    rw [List.head?_append, hpath.starts]
    rfl
  nodup := by
    rw [← List.concat_eq_append]
    exact hpath.nodup.concat hnew

/-- What can be reached is reached without meeting an item twice. -/
theorem Leads.exists_simplePath (hleads : Leads next root x) :
    ∃ path, SimplePath next root path ∧ path.getLast? = some x := by
  induction hleads with
  | refl => exact ⟨[root], .singleton root, rfl⟩
  | @tail x y _ hy ih =>
      obtain ⟨path, hpath, hlast⟩ := ih
      by_cases hmem : y ∈ path
      · -- the path has met the item, and ends there
        obtain ⟨front, back, rfl⟩ := List.append_of_mem hmem
        exact ⟨front ++ [y], hpath.take, by simp⟩
      · exact ⟨path ++ [y], hpath.concat hlast hy hmem, by simp⟩

/-- The first item of a chain leads to all its items. -/
theorem leads_of_isChain (hchain : (x :: path).IsChain fun x y => y ∈ next x)
    (hy : y ∈ x :: path) : Leads next x y := by
  induction path generalizing x with
  | nil =>
      rw [List.mem_singleton.mp hy]
  | cons z rest ih =>
      rw [List.isChain_cons_cons] at hchain
      cases List.mem_cons.mp hy with
      | inl heq => rw [heq]
      | inr hrest => exact .head hchain.1 (ih hchain.2 hrest)

theorem SimplePath.leads (hpath : SimplePath next root path) (hx : x ∈ path) :
    Leads next root x := by
  obtain ⟨rest, rfl⟩ := List.head?_eq_some_iff.mp hpath.starts
  exact leads_of_isChain hpath.chain hx

/-- Every item of a path leads to the last. -/
theorem SimplePath.leads_last (hpath : SimplePath next root path) (hx : x ∈ path)
    (hlast : path.getLast? = some y) : Leads next x y := by
  obtain ⟨front, back, rfl⟩ := List.append_of_mem hx
  rw [List.getLast?_append_of_ne_nil _ (by simp)] at hlast
  exact leads_of_isChain hpath.chain.right_of_append (List.mem_of_getLast? hlast)

/-- Without cycles no path meets an item twice. -/
theorem Acyclic.nodup (hacyclic : Acyclic next) (hchain : path.IsChain fun x y => y ∈ next x) :
    path.Nodup := by
  have htrans : path.IsChain (Relation.TransGen fun x y => y ∈ next x) :=
    hchain.imp fun _ _ => .single
  apply htrans.pairwise.imp
  intro a b hpath heq
  subst heq
  exact hacyclic a hpath

/-- Without cycles a simple path goes on along any path. -/
theorem Acyclic.exists_simplePath (hacyclic : Acyclic next) (hx : Leads next root x)
    (hy : Leads next x y) :
    ∃ path, SimplePath next root path ∧ x ∈ path ∧ path.getLast? = some y := by
  obtain ⟨front, hfront, hlast⟩ := hx.exists_simplePath
  induction hy with
  | refl => exact ⟨front, hfront, List.mem_of_getLast? hlast, hlast⟩
  | @tail y z _ hz ih =>
      obtain ⟨path, hpath, hmem, hend⟩ := ih
      have hnodup := hacyclic.nodup (isChain_concat hpath.chain hend hz)
      have hnew : z ∉ path := fun hmem =>
        (List.nodup_append.mp hnodup).2.2 z hmem z (List.mem_singleton_self z) rfl
      exact ⟨path ++ [z], hpath.concat hend hz hnew, List.mem_append_left _ hmem, by simp⟩

end Paths

end Trun
