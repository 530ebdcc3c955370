import Mathlib.Data.Finset.Basic
import Mathlib.Data.Finset.Card
import Trun.Program.SimplePaths
import Trun.Python.Nested

/-!
# The steps between a step and a family

`trun.tools.deps` lists the steps on the paths from a step to the steps of a
family.  `dfs_paths` is a generator that calls itself: it yields the whole path
at every step of the family, and goes on below it.
-/

namespace Trun.Deps

universe u

/-- Finitely many steps, with what each of them requires. -/
structure Requirements (σ : Type u) where
  steps : Finset σ
  requires : σ → Nested σ
  stepFamily : σ → String
  closed : ∀ s ∈ steps, ∀ t ∈ (requires s).flatten, t ∈ steps

/-- The order in which Python iterates over a set. -/
structure SetOrder (σ : Type u) where
  iterate : Finset σ → List σ
  mem_iterate : ∀ set x, x ∈ iterate set ↔ x ∈ set

section Search

variable {σ : Type u} [DecidableEq σ]

def getStepRequires (graph : Requirements σ) (step : σ) : Finset σ :=
  (graph.requires step).flatten.toFinset

/-- The steps that a step requires, for the paths. -/
def Requirements.next (graph : Requirements σ) (step : σ) : List σ :=
  (graph.requires step).flatten

/-- A family that matches: the one that is searched, or any where none is. -/
def Requirements.Matches (graph : Requirements σ) (goal : Option String) (step : σ) : Prop :=
  some (graph.stepFamily step) = goal ∨ goal = none

instance (graph : Requirements σ) (goal : Option String) (step : σ) :
    Decidable (graph.Matches goal step) :=
  inferInstanceAs (Decidable (_ ∨ _))

theorem mem_steps_of_mem_next {graph : Requirements σ} {step next : σ} {path : List σ}
    (order : SetOrder σ) (hstep : step ∈ graph.steps)
    (hnext : next ∈ order.iterate (getStepRequires graph step \ path.toFinset)) :
    next ∈ graph.next step ∧ next ∉ path ∧ next ∈ graph.steps := by
  rw [order.mem_iterate, Finset.mem_sdiff, List.mem_toFinset] at hnext
  have hrequired : next ∈ graph.next step := List.mem_toFinset.mp hnext.1
  exact ⟨hrequired, hnext.2, graph.closed step hstep next hrequired⟩

/-- Fewer steps are left once one of them is on the path. -/
theorem card_left_lt {graph : Requirements σ} {next : σ} {path : List σ}
    (hnext : next ∈ graph.steps) (hnew : next ∉ path) :
    (graph.steps \ (path ++ [next]).toFinset).card < (graph.steps \ path.toFinset).card := by
  apply Finset.card_lt_card
  rw [Finset.ssubset_iff_of_subset]
  · exact ⟨next, by simp [hnext, hnew], by simp⟩
  · apply Finset.sdiff_subset_sdiff (Finset.Subset.refl _)
    intro x hx
    rw [List.mem_toFinset] at hx ⊢
    exact List.mem_append_left _ hx

/-- `dfs_paths`, with the items in the order in which they are yielded. -/
def dfsPaths (graph : Requirements σ) (order : SetOrder σ) (goal : Option String)
    (start : {s // s ∈ graph.steps}) (path : List σ) : List σ :=
  (if graph.Matches goal start then path else []) ++
    (order.iterate (getStepRequires graph start \ path.toFinset)).attach.flatMap
      fun ⟨next, hnext⟩ =>
        dfsPaths graph order goal ⟨next, (mem_steps_of_mem_next order start.2 hnext).2.2⟩
          (path ++ [next])
  termination_by (graph.steps \ path.toFinset).card
  decreasing_by
    have hleft := mem_steps_of_mem_next order start.2 hnext
    exact card_left_lt hleft.2.2 hleft.2.1

def findDeps (graph : Requirements σ) (order : SetOrder σ) (step : {s // s ∈ graph.steps})
    (family : Option String) : Finset σ :=
  (dfsPaths graph order family step [step]).toFinset

end Search

section Paths

variable {σ : Type u} {graph : Requirements σ} {item : σ}

/-- A path that goes on from the last step, avoids what it has met and ends at a match. -/
structure GoesOn (graph : Requirements σ) (goal : Option String) (start : σ) (path rest : List σ) :
    Prop where
  chain : (start :: rest).IsChain fun x y => y ∈ graph.next x
  avoids : ∀ x ∈ rest, x ∉ path
  nodup : rest.Nodup
  ends : graph.Matches goal ((start :: rest).getLast (List.cons_ne_nil _ _))

theorem goesOn_cons {goal : Option String} {start next : σ} {path rest : List σ} :
    GoesOn graph goal start path (next :: rest) ↔
      next ∈ graph.next start ∧ next ∉ path ∧ GoesOn graph goal next (path ++ [next]) rest := by
  constructor
  · intro hrest
    have hnodup := List.nodup_cons.mp hrest.nodup
    have hchain := List.isChain_cons_cons.mp hrest.chain
    refine ⟨hchain.1, hrest.avoids next List.mem_cons_self, hchain.2, ?_, hnodup.2, ?_⟩
    · intro x hx hmem
      cases List.mem_append.mp hmem with
      | inl hpath => exact hrest.avoids x (List.mem_cons_of_mem _ hx) hpath
      | inr hnext => exact hnodup.1 (List.mem_singleton.mp hnext ▸ hx)
    · simpa using hrest.ends
  · rintro ⟨hnext, hnew, hrest⟩
    refine ⟨List.isChain_cons_cons.mpr ⟨hnext, hrest.chain⟩, ?_, ?_, ?_⟩
    · intro x hx hpath
      cases List.mem_cons.mp hx with
      | inl heq => exact hnew (heq ▸ hpath)
      | inr hmem => exact hrest.avoids x hmem (List.mem_append_left _ hpath)
    · refine List.nodup_cons.mpr ⟨?_, hrest.nodup⟩
      intro hmem
      exact hrest.avoids next hmem (List.mem_append_right _ List.mem_cons_self)
    · simpa using hrest.ends

/-- A simple path from the step to a step of the family. -/
def OnPath (graph : Requirements σ) (family : Option String) (start item : σ) : Prop :=
  ∃ path last, SimplePath graph.next start path ∧ path.getLast? = some last ∧
    graph.Matches family last ∧ item ∈ path

theorem onPath_none {start : σ} : OnPath graph none start item ↔ Leads graph.next start item := by
  constructor
  · rintro ⟨path, -, hpath, -, -, hitem⟩
    exact hpath.leads hitem
  · intro hleads
    obtain ⟨path, hpath, hlast⟩ := hleads.exists_simplePath
    exact ⟨path, item, hpath, hlast, .inr rfl, List.mem_of_getLast? hlast⟩

theorem onPath_acyclic {start : σ} {family : Option String} (hacyclic : Acyclic graph.next) :
    OnPath graph family start item ↔
      Leads graph.next start item ∧ ∃ last, Leads graph.next item last ∧
        graph.Matches family last := by
  constructor
  · rintro ⟨path, last, hpath, hlast, hmatch, hitem⟩
    exact ⟨hpath.leads hitem, last, hpath.leads_last hitem hlast, hmatch⟩
  · rintro ⟨hstart, last, hitem, hmatch⟩
    obtain ⟨path, hpath, hmem, hlast⟩ := hacyclic.exists_simplePath hstart hitem
    exact ⟨path, last, hpath, hlast, hmatch, hmem⟩

variable [DecidableEq σ]

/-- What is yielded are the paths that go on to a match. -/
theorem mem_dfsPaths (order : SetOrder σ) (goal : Option String)
    (start : {s // s ∈ graph.steps}) (path : List σ) :
    item ∈ dfsPaths graph order goal start path ↔
      ∃ rest, GoesOn graph goal start path rest ∧ item ∈ path ++ rest := by
  fun_induction dfsPaths graph order goal start path with
  | case1 start path ih =>
      rw [List.mem_append, List.mem_flatMap]
      constructor
      · rintro (hyield | ⟨⟨next, hmem⟩, -, hbelow⟩)
        · by_cases hgoal : graph.Matches goal start
          · rw [if_pos hgoal] at hyield
            exact ⟨[], ⟨.singleton _, by simp, List.nodup_nil, hgoal⟩, by simpa using hyield⟩
          · rw [if_neg hgoal] at hyield
            cases hyield
        · obtain ⟨rest, hrest, hitem⟩ := (ih next hmem).mp hbelow
          have hnext := mem_steps_of_mem_next order start.2 hmem
          exact ⟨next :: rest, goesOn_cons.mpr ⟨hnext.1, hnext.2.1, hrest⟩, by simpa using hitem⟩
      · rintro ⟨rest, hrest, hitem⟩
        cases rest with
        | nil =>
            have hgoal : graph.Matches goal start := hrest.ends
            left
            rw [if_pos hgoal]
            simpa using hitem
        | cons next rest =>
            right
            obtain ⟨hnext, hnew, hrest⟩ := goesOn_cons.mp hrest
            have hmem : next ∈ order.iterate (getStepRequires graph start \ path.toFinset) := by
              rw [order.mem_iterate, Finset.mem_sdiff, List.mem_toFinset]
              exact ⟨List.mem_toFinset.mpr hnext, hnew⟩
            exact ⟨⟨next, hmem⟩, List.mem_attach _ _, (ih next hmem).mpr
              ⟨rest, hrest, by simpa using hitem⟩⟩

theorem mem_findDeps (order : SetOrder σ) (step : {s // s ∈ graph.steps})
    (family : Option String) :
    item ∈ findDeps graph order step family ↔ OnPath graph family step item := by
  rw [findDeps, List.mem_toFinset, mem_dfsPaths]
  constructor
  · rintro ⟨rest, hrest, hitem⟩
    have hnew : step.1 ∉ rest := fun hmem => hrest.avoids _ hmem List.mem_cons_self
    exact ⟨step :: rest, _, ⟨hrest.chain, rfl, List.nodup_cons.mpr ⟨hnew, hrest.nodup⟩⟩,
      List.getLast?_eq_some_getLast _, hrest.ends, hitem⟩
  · rintro ⟨path, last, hpath, hlast, hmatch, hitem⟩
    obtain ⟨rest, rfl⟩ := List.head?_eq_some_iff.mp hpath.starts
    have hnodup := List.nodup_cons.mp hpath.nodup
    rw [List.getLast?_eq_some_getLast (List.cons_ne_nil _ _)] at hlast
    cases hlast
    refine ⟨rest, ⟨hpath.chain, ?_, hnodup.2, hmatch⟩, hitem⟩
    intro x hx hmem
    rw [List.mem_singleton.mp hmem] at hx
    exact hnodup.1 hx

/-- The steps on the simple paths to the family, which without cycles are all between
the step and the family. -/
theorem findDeps_eq_paths (graph : Requirements σ) (order : SetOrder σ)
    (step : {s // s ∈ graph.steps}) (family : String) (item : σ) :
    (item ∈ findDeps graph order step (some family) ↔ ∃ path last,
      SimplePath graph.next step path ∧ path.getLast? = some last ∧
        graph.stepFamily last = family ∧ item ∈ path) ∧
    (item ∈ findDeps graph order step none ↔ Leads graph.next step item) ∧
    (Acyclic graph.next → (item ∈ findDeps graph order step (some family) ↔
      Leads graph.next step item ∧ ∃ last, Leads graph.next item last ∧
        graph.stepFamily last = family)) := by
  have hmatches : ∀ last, graph.Matches (some family) last ↔ graph.stepFamily last = family := by
    simp [Requirements.Matches]
  refine ⟨?_, ?_, ?_⟩
  · simp only [mem_findDeps, OnPath, hmatches]
  · rw [mem_findDeps, onPath_none]
  · intro hacyclic
    simp only [mem_findDeps, onPath_acyclic hacyclic, hmatches]

/-- A step `Report` that requires two steps `Load`, of which one requires the other. -/
def reports : Requirements (Fin 4) where
  steps := Finset.univ
  requires step := .list ((if step = 0 then [1, 2] else if step = 2 then [1] else []).map .item)
  stepFamily step := if step = 0 then "Report" else if step = 3 then "Other" else "Load"
  closed := by simp

def ascending : SetOrder (Fin 4) where
  iterate set := (List.finRange 4).filter (· ∈ set)
  mem_iterate := by simp

theorem acyclic_reports : Acyclic reports.next := by
  have hrank : ∀ x, ∀ y ∈ reports.next x,
      (if y = 0 then 2 else if y = 2 then 1 else 0) <
        if x = 0 then 2 else if x = 2 then 1 else 0 := by
    decide
  exact Acyclic.of_rank (fun x => if x = 0 then 2 else if x = 2 then 1 else 0) hrank

theorem findDeps_reports : Acyclic reports.next ∧
    ∀ item, (item ∈ findDeps reports ascending ⟨0, Finset.mem_univ 0⟩ (some "Load") ↔
      Leads reports.next 0 item ∧ ∃ last, Leads reports.next item last ∧
        reports.stepFamily last = "Load") :=
  ⟨acyclic_reports, fun item =>
    (findDeps_eq_paths reports ascending ⟨0, Finset.mem_univ 0⟩ "Load" item).2.2 acyclic_reports⟩

end Paths

end Trun.Deps
