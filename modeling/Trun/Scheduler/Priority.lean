import Mathlib.Data.Finset.Card
import Mathlib.Data.Finset.Filter
import Mathlib.Data.Finset.Dedup
import Trun.Scheduler.Storage

/-!
# Passing a priority upstream

`updatePriority` raises the priorities of a step and of what it depends on, and
writes nothing else.  Each recursive call raises a step that lies below the value
being passed on, so the number of such steps bounds the depth.
-/

namespace Trun

open Program

namespace Scheduler

/-- Only priorities differ, and none has fallen. -/
structure Raises (s t : Scheduler) : Prop where
  same : SameTables s t
  statusSteps : t.statusSteps = s.statusSteps
  priority_le : ∀ ref, (s.stepAt ref).priority ≤ (t.stepAt ref).priority
  stepAt : ∀ ref, t.stepAt ref = { s.stepAt ref with priority := (t.stepAt ref).priority }

variable {s t u : Scheduler}

theorem Raises.refl (s : Scheduler) : Raises s s where
  same := .refl s
  statusSteps := rfl
  priority_le := fun _ => le_refl _
  stepAt := fun _ => rfl

theorem Raises.trans (hst : Raises s t) (htu : Raises t u) : Raises s u where
  same := hst.same.trans htu.same
  statusSteps := htu.statusSteps.trans hst.statusSteps
  priority_le := fun ref => (hst.priority_le ref).trans (htu.priority_le ref)
  stepAt := fun ref => by
    rw [htu.stepAt ref, hst.stepAt ref]

theorem Raises.deps (hraises : Raises s t) (ref : Ref) :
    (t.stepAt ref).deps = (s.stepAt ref).deps := by
  rw [hraises.stepAt ref]

/-- The own write of `updatePriority`. -/
def raise (s : Scheduler) (ref : Ref) (raised : Int) : Scheduler :=
  s.updateStep ref fun step => { step with priority := raised }

theorem raises_raise {ref : Ref} {raised : Int} (hle : (s.stepAt ref).priority ≤ raised) :
    Raises s (s.raise ref raised) where
  same := sameTables_updateStep ..
  statusSteps := rfl
  priority_le := by
    intro other
    by_cases hother : other = ref
    · subst hother
      simpa [raise] using hle
    · simp [raise, hother]
  stepAt := by
    intro other
    by_cases hother : other = ref
    · subst hother
      simp [raise]
    · simp [raise, hother]

/-- The steps in the table whose priority lies below a value. -/
def below (s : Scheduler) (raised : Int) : Finset Ref :=
  s.activeSteps.toFinset.filter fun ref => (s.stepAt ref).priority < raised

theorem Raises.below_subset (hraises : Raises s t) (raised : Int) :
    t.below raised ⊆ s.below raised := by
  intro ref hmem
  have hactive : t.activeSteps = s.activeSteps := by
    simp only [activeSteps, hraises.same.steps]
  simp only [below, Finset.mem_filter, List.mem_toFinset, hactive] at hmem ⊢
  exact ⟨hmem.1, (hraises.priority_le ref).trans_lt hmem.2⟩

/-- Raising a step of the table takes it out of the steps below. -/
theorem card_below_raise {ref : Ref} {raised : Int} {id : StepId}
    (hget : s.getStep id = some ref) (hlt : (s.stepAt ref).priority < raised) :
    ((s.raise ref raised).below raised).card < (s.below raised).card := by
  apply Finset.card_lt_card
  have hmem : ref ∈ s.below raised := by
    simp only [below, Finset.mem_filter, List.mem_toFinset, s.mem_activeSteps]
    exact ⟨⟨id, hget⟩, hlt⟩
  have hnot : ref ∉ (s.raise ref raised).below raised := by
    simp [below, raise]
  exact ⟨(raises_raise hlt.le).below_subset raised, fun hsub => hnot (hsub hmem)⟩

theorem card_below_le (s : Scheduler) (raised : Int) : (s.below raised).card ≤ s.steps.size := by
  have hlist : s.activeSteps.toFinset.card ≤ s.activeSteps.length := List.toFinset_card_le _
  have hlength : s.activeSteps.length = s.steps.size := by
    simp [activeSteps, Dict.values, Dict.size]
  exact (Finset.card_filter_le _ _).trans (hlength ▸ hlist)

/-- What `updatePriority` does: the step and its dependencies reach the raised
value, and nothing but priorities changes. -/
def Lifts (program : SchedulerM Unit) (s : Scheduler) (ref : Ref) (raised : Int) : Prop :=
  ∃ t, program.exec s = (.ok (), t) ∧ Raises s t ∧ raised ≤ (t.stepAt ref).priority ∧
    ∀ dep ∈ (s.stepAt ref).deps.elems, ∀ target, s.getStep dep = some target →
      raised ≤ (t.stepAt target).priority

/-- The loop over the dependencies, once the recursive calls are understood. -/
private theorem raiseDeps (depth : ℕ) (raised : Int)
    (hrecur : ∀ (s : Scheduler) (target : Ref), (s.stepAt target).priority < raised →
      ((s.raise target raised).below raised).card < depth →
      Lifts (updatePriorityUpTo depth raised target) s target raised)
    (deps : List StepId) (s : Scheduler) (hcount : (s.below raised).card ≤ depth) :
    ∃ t, exec (deps.forM fun dep => do
        let s ← get
        match s.getStep dep with
        | none => pure ()
        | some target =>
            if (s.stepAt target).priority < raised then updatePriorityUpTo depth raised target
            else pure ()) s = (.ok (), t) ∧ Raises s t ∧
      ∀ dep ∈ deps, ∀ target, s.getStep dep = some target →
        raised ≤ (t.stepAt target).priority := by
  induction deps generalizing s with
  | nil => exact ⟨s, rfl, .refl s, fun _ h => by cases h⟩
  | cons dep rest ih =>
      have hhead : ∃ t, exec (do
          let s ← get
          match s.getStep dep with
          | none => pure ()
          | some target =>
              if (s.stepAt target).priority < raised then updatePriorityUpTo depth raised target
              else pure ()) s = (.ok (), t) ∧ Raises s t ∧
          ∀ target, s.getStep dep = some target → raised ≤ (t.stepAt target).priority := by
        rw [exec_get_bind]
        cases hget : s.getStep dep with
        | none => exact ⟨s, rfl, .refl s, fun _ h => by cases h⟩
        | some target =>
            by_cases hlt : (s.stepAt target).priority < raised
            · obtain ⟨t, hrun, hraises, hown, -⟩ := hrecur s target hlt
                ((card_below_raise hget hlt).trans_le hcount)
              simp only [hlt, if_true]
              exact ⟨t, hrun, hraises, fun other hother => Option.some.inj hother ▸ hown⟩
            · simp only [hlt, if_false]
              exact ⟨s, rfl, .refl s, fun other hother =>
                Option.some.inj hother ▸ Int.not_lt.mp hlt⟩
      obtain ⟨t, hrun, hraises, hdep⟩ := hhead
      obtain ⟨u, hrun', hraises', hrest⟩ := ih t
        ((Finset.card_le_card (hraises.below_subset raised)).trans hcount)
      refine ⟨u, (exec_bind_ok hrun).trans hrun', hraises.trans hraises', ?_⟩
      intro other hother target hget
      rcases List.mem_cons.mp hother with rfl | hmem
      · exact (hdep target hget).trans (hraises'.priority_le target)
      · exact hrest other hmem target (by rw [hraises.same.getStep]; exact hget)

theorem updatePriorityUpTo_spec (depth : ℕ) (s : Scheduler) (priority : Int) (ref : Ref)
    (hcount : ((s.raise ref (max priority (s.stepAt ref).priority)).below
      (max priority (s.stepAt ref).priority)).card < depth) :
    Lifts (updatePriorityUpTo depth priority ref) s ref
      (max priority (s.stepAt ref).priority) := by
  induction depth generalizing s priority ref with
  | zero => exact absurd hcount (Nat.not_lt_zero _)
  | succ depth ih =>
      set raised := max priority (s.stepAt ref).priority with hraised
      have hown : Raises s (s.raise ref raised) := raises_raise (le_max_right ..)
      have hrecur : ∀ (s : Scheduler) (target : Ref), (s.stepAt target).priority < raised →
          ((s.raise target raised).below raised).card < depth →
          Lifts (updatePriorityUpTo depth raised target) s target raised := by
        intro s target hlt hcount
        have hmax : max raised (s.stepAt target).priority = raised := max_eq_left hlt.le
        have hcall := ih s raised target (by rw [hmax]; exact hcount)
        rwa [hmax] at hcall
      obtain ⟨t, hrun, hraises, hdeps⟩ := raiseDeps depth raised hrecur
        (s.stepAt ref).deps.elems (s.raise ref raised) (Nat.lt_succ_iff.mp hcount)
      refine ⟨t, ?_, hown.trans hraises, ?_, hdeps⟩
      · simp only [updatePriorityUpTo, exec_get_bind, exec_modify_bind, ← hraised]
        exact hrun
      · have hself : ((s.raise ref raised).stepAt ref).priority = raised := by simp [raise]
        exact hself ▸ hraises.priority_le ref

/-- `updatePriority` cannot fail. -/
theorem updatePriority_spec (s : Scheduler) (priority : Int) (ref : Ref) :
    Lifts (updatePriority priority ref) s ref (max priority (s.stepAt ref).priority) := by
  have hspec := updatePriorityUpTo_spec (s.steps.size + 1) s priority ref
    (Nat.lt_succ_of_le (card_below_le (s.raise ref _) _))
  unfold Lifts at hspec ⊢
  unfold updatePriority
  rw [exec_get_bind]
  exact hspec

/-- What a step depends on has a priority of at least a value. -/
def Reaches (s : Scheduler) (raised : Int) (ref : Ref) : Prop :=
  ∀ dep ∈ (s.stepAt ref).deps.elems, ∀ target, s.getStep dep = some target →
    raised ≤ (s.stepAt target).priority

theorem Reaches.mono {raised : Int} {ref : Ref} (hreaches : s.Reaches raised ref)
    (hraises : Raises s t) : t.Reaches raised ref := by
  intro dep hdep target hget
  rw [hraises.deps] at hdep
  rw [hraises.same.getStep] at hget
  exact (hreaches dep hdep target hget).trans (hraises.priority_le target)

/-- A step whose priority changed has got the value, and passed it on. -/
structure Carries (raised : Int) (s t : Scheduler) : Prop where
  raises : Raises s t
  changed : ∀ ref, (t.stepAt ref).priority = (s.stepAt ref).priority ∨
    ((t.stepAt ref).priority = raised ∧ t.Reaches raised ref)

theorem Carries.refl (raised : Int) (s : Scheduler) : Carries raised s s :=
  ⟨.refl s, fun _ => .inl rfl⟩

theorem Carries.trans {raised : Int} (hst : Carries raised s t) (htu : Carries raised t u) :
    Carries raised s u where
  raises := hst.raises.trans htu.raises
  changed := by
    intro ref
    rcases htu.changed ref with hsame | hclosed
    · rcases hst.changed ref with hsame' | ⟨hvalue, hreaches⟩
      · exact .inl (hsame.trans hsame')
      · exact .inr ⟨hsame.trans hvalue, hreaches.mono htu.raises⟩
    · exact .inr hclosed

/-- A recursive call that returns.  While it runs, its own step is the only raised one
that has not passed the value on. -/
theorem updatePriorityUpTo_carries {depth : ℕ} {priority raised : Int} {ref : Ref}
    (hraised : max priority (s.stepAt ref).priority = raised)
    (hrun : (updatePriorityUpTo depth priority ref).exec s = (.ok (), t)) :
    Carries raised s t ∧ (t.stepAt ref).priority = raised ∧ t.Reaches raised ref := by
  induction depth generalizing s t priority ref with
  | zero => cases hrun
  | succ depth ih =>
      simp only [updatePriorityUpTo, exec_get_bind, exec_modify_bind, hraised] at hrun
      change exec _ (s.raise ref raised) = _ at hrun
      have hown : Raises s (s.raise ref raised) := raises_raise (hraised ▸ le_max_right ..)
      have hround : ∀ (dep : StepId) {first last : Scheduler}, exec (do
          let s ← get
          match s.getStep dep with
          | none => pure ()
          | some target =>
              if (s.stepAt target).priority < raised then updatePriorityUpTo depth raised target
              else pure ()) first = (.ok (), last) → Carries raised first last ∧
          ∀ target, last.getStep dep = some target → raised ≤ (last.stepAt target).priority := by
        intro dep first last hbody
        rw [exec_get_bind] at hbody
        cases hget : first.getStep dep with
        | none =>
            rw [hget] at hbody
            cases hbody
            exact ⟨.refl .., fun _ h => by rw [hget] at h; cases h⟩
        | some target =>
            simp only [hget] at hbody
            by_cases hlt : (first.stepAt target).priority < raised
            · rw [if_pos hlt] at hbody
              obtain ⟨hcarries, hvalue, -⟩ := ih (max_eq_left hlt.le) hbody
              refine ⟨hcarries, fun other hother => ?_⟩
              rw [hcarries.raises.same.getStep, hget] at hother
              exact Option.some.inj hother ▸ hvalue.ge
            · rw [if_neg hlt] at hbody
              cases hbody
              refine ⟨.refl .., fun other hother => ?_⟩
              rw [hget] at hother
              exact Option.some.inj hother ▸ Int.not_lt.mp hlt
      obtain ⟨hloop, hdeps⟩ := exec_forM_ok (Carries raised)
        (fun dep state => ∀ target, state.getStep dep = some target →
          raised ≤ (state.stepAt target).priority)
        (Carries.refl raised) Carries.trans
        (fun dep first last hrel hpost target hget =>
          (hpost target (by rw [← hrel.raises.same.getStep]; exact hget)).trans
            (hrel.raises.priority_le target))
        (fun dep _ => hround dep) hrun
      have hreaches : t.Reaches raised ref := by
        intro dep hdep target hget
        rw [hloop.raises.deps, hown.deps] at hdep
        exact hdeps dep hdep target hget
      have hvalue : (t.stepAt ref).priority = raised := by
        have hself : ((s.raise ref raised).stepAt ref).priority = raised := by simp [raise]
        rcases hloop.changed ref with hsame | hclosed
        · exact hsame.trans hself
        · exact hclosed.1
      refine ⟨⟨hown.trans hloop.raises, fun other => ?_⟩, hvalue, hreaches⟩
      by_cases hother : other = ref
      · exact hother ▸ .inr ⟨hvalue, hreaches⟩
      · have hkept : (s.raise ref raised).stepAt other = s.stepAt other := by
          simp [raise, hother]
        rw [← hkept]
        exact hloop.changed other

/-- `updatePriority` passes the priority it arrives at on to everything upstream. -/
theorem updatePriority_carries (s : Scheduler) (priority : Int) (ref : Ref) :
    ∃ t, (updatePriority priority ref).exec s = (.ok (), t) ∧
      Carries (max priority (s.stepAt ref).priority) s t ∧
      (t.stepAt ref).priority = max priority (s.stepAt ref).priority ∧
      t.Reaches (max priority (s.stepAt ref).priority) ref := by
  obtain ⟨t, hrun, -⟩ := updatePriority_spec s priority ref
  refine ⟨t, hrun, ?_⟩
  unfold updatePriority at hrun
  rw [exec_get_bind] at hrun
  exact updatePriorityUpTo_carries rfl hrun

/-- A value that nothing upstream lies below changes the step only. -/
theorem updatePriority_level {priority : Int} {ref : Ref}
    (hlevel : ∀ dep ∈ (s.stepAt ref).deps.elems, ∀ target, s.getStep dep = some target →
      max priority (s.stepAt ref).priority ≤ (s.stepAt target).priority) :
    (updatePriority priority ref).exec s =
      (.ok (), s.raise ref (max priority (s.stepAt ref).priority)) := by
  have hloop : ∀ deps : List StepId, (∀ dep ∈ deps, dep ∈ (s.stepAt ref).deps.elems) →
      ∀ t, Raises s t → t = s.raise ref (max priority (s.stepAt ref).priority) →
      exec (deps.forM fun dep => do
        let s' ← get
        match s'.getStep dep with
        | none => pure ()
        | some target =>
            if (s'.stepAt target).priority < max priority (s.stepAt ref).priority then
              updatePriorityUpTo s.steps.size (max priority (s.stepAt ref).priority) target
            else pure ()) t = (.ok (), t) := by
    intro deps
    induction deps with
    | nil => intro _ t _ _; rfl
    | cons dep rest ih =>
        intro hmem t hraises ht
        have hhead : exec (do
            let s' ← get
            match s'.getStep dep with
            | none => pure ()
            | some target =>
                if (s'.stepAt target).priority < max priority (s.stepAt ref).priority then
                  updatePriorityUpTo s.steps.size (max priority (s.stepAt ref).priority) target
                else pure ()) t = (.ok (), t) := by
          rw [exec_get_bind, hraises.same.getStep]
          cases hget : s.getStep dep with
          | none => rfl
          | some target =>
              have hle := hlevel dep (hmem dep (List.mem_cons_self ..)) target hget
              have hnot : ¬(t.stepAt target).priority < max priority (s.stepAt ref).priority :=
                Int.not_lt.mpr (hle.trans (hraises.priority_le target))
              simp only [hnot, if_false]
              rfl
        exact (exec_bind_ok hhead).trans
          (ih (fun other hother => hmem other (List.mem_cons_of_mem _ hother)) t hraises ht)
  have hraises : Raises s (s.raise ref (max priority (s.stepAt ref).priority)) :=
    raises_raise (le_max_right ..)
  have hrun := hloop (s.stepAt ref).deps.elems (fun _ h => h) _ hraises rfl
  simp only [updatePriority, updatePriorityUpTo, exec_get_bind, exec_modify_bind]
  exact hrun

end Scheduler

end Trun
