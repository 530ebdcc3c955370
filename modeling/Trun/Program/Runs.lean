import Mathlib.Data.List.Basic

/-!
# Runs of a machine

A machine is a function from a state and an event to the next state.  `Along`
says that a condition on states and events holds at every event of a run, each
taken in the state in which it occurs.
-/

namespace Trun

universe u v

variable {σ : Type u} {ε : Type v}

def runAll (next : σ → ε → σ) (state : σ) (events : List ε) : σ :=
  events.foldl next state

/-- The condition holds at every event of the run. -/
def Along (next : σ → ε → σ) (condition : σ → ε → Prop) : σ → List ε → Prop
  | _, [] => True
  | state, event :: rest => condition state event ∧ Along next condition (next state event) rest

instance decidableAlong (next : σ → ε → σ) (condition : σ → ε → Prop)
    [∀ state event, Decidable (condition state event)] :
    ∀ (state : σ) (events : List ε), Decidable (Along next condition state events)
  | _, [] => isTrue trivial
  | state, event :: rest =>
      have := decidableAlong next condition (next state event) rest
      inferInstanceAs (Decidable (condition state event ∧ Along next condition _ rest))

/-- The property holds up to the first event that ends it, and that event closes it. -/
def Until (next : σ → ε → σ) (holds : σ → Prop) (ends : ε → Prop) [DecidablePred ends]
    (closes : σ → ε → Prop) : σ → List ε → Prop
  | state, [] => holds state
  | state, event :: rest => holds state ∧
      if ends event then closes state event
      else Until next holds ends closes (next state event) rest

instance decidableUntil (next : σ → ε → σ) (holds : σ → Prop) [DecidablePred holds]
    (ends : ε → Prop) [DecidablePred ends] (closes : σ → ε → Prop)
    [∀ state event, Decidable (closes state event)] :
    ∀ (state : σ) (events : List ε), Decidable (Until next holds ends closes state events)
  | state, [] => inferInstanceAs (Decidable (holds state))
  | state, event :: rest =>
      have := decidableUntil next holds ends closes (next state event) rest
      inferInstanceAs (Decidable (holds state ∧
        if ends event then closes state event else Until next holds ends closes _ rest))

section Rules

variable {next : σ → ε → σ} {condition other : σ → ε → Prop} {state : σ}

@[simp] theorem runAll_nil : runAll next state [] = state := rfl

@[simp] theorem runAll_cons (event : ε) (rest : List ε) :
    runAll next state (event :: rest) = runAll next (next state event) rest := rfl

theorem runAll_append (front back : List ε) :
    runAll next state (front ++ back) = runAll next (runAll next state front) back :=
  List.foldl_append

@[simp] theorem along_nil : Along next condition state [] := trivial

@[simp] theorem along_cons (event : ε) (rest : List ε) :
    Along next condition state (event :: rest) ↔
      condition state event ∧ Along next condition (next state event) rest := Iff.rfl

theorem along_append (front back : List ε) :
    Along next condition state (front ++ back) ↔
      Along next condition state front ∧
        Along next condition (runAll next state front) back := by
  induction front generalizing state with
  | nil => simp
  | cons event rest ih => simp only [List.cons_append, along_cons, ih, runAll_cons, and_assoc]

theorem Along.mono {events : List ε}
    (himp : ∀ state event, condition state event → other state event)
    (halong : Along next condition state events) : Along next other state events := by
  induction events generalizing state with
  | nil => trivial
  | cons event rest ih => exact ⟨himp _ _ halong.1, ih halong.2⟩

theorem along_of_forall (hall : ∀ state event, condition state event) (events : List ε) :
    Along next condition state events := by
  induction events generalizing state with
  | nil => trivial
  | cons event rest ih => exact ⟨hall state event, ih⟩

theorem along_of_forall_mem {property : ε → Prop} {events : List ε}
    (hall : ∀ event ∈ events, property event) :
    Along next (fun _ event => property event) state events := by
  induction events generalizing state with
  | nil => trivial
  | cons event rest ih =>
      obtain ⟨hevent, hrest⟩ := List.forall_mem_cons.mp hall
      exact ⟨hevent, ih hrest⟩

theorem Along.and {events : List ε} (halong : Along next condition state events)
    (hother : Along next other state events) :
    Along next (fun state event => condition state event ∧ other state event) state events := by
  induction events generalizing state with
  | nil => trivial
  | cons event rest ih => exact ⟨⟨halong.1, hother.1⟩, ih halong.2 hother.2⟩

theorem Along.and_forall {property : ε → Prop} {events : List ε}
    (halong : Along next condition state events) (hall : ∀ event ∈ events, property event) :
    Along next (fun state event => condition state event ∧ property event) state events :=
  halong.and (along_of_forall_mem hall)

/-- Each event is met after those before it. -/
theorem along_iff_forall_split {events : List ε} :
    Along next condition state events ↔ ∀ before event after,
      events = before ++ event :: after → condition (runAll next state before) event := by
  induction events generalizing state with
  | nil => exact iff_of_true trivial fun before event after heq => by simp at heq
  | cons first rest ih =>
      rw [along_cons, ih]
      constructor
      · rintro ⟨hfirst, hrest⟩ before event after heq
        cases before with
        | nil =>
            obtain ⟨rfl, -⟩ := List.cons_eq_cons.mp heq
            exact hfirst
        | cons other before =>
            obtain ⟨rfl, htail⟩ := List.cons_eq_cons.mp heq
            exact hrest before event after htail
      · intro hall
        refine ⟨hall [] first rest rfl, fun before event after heq => ?_⟩
        exact hall (first :: before) event after (by rw [heq]; rfl)

/-- What holds at first and is kept by every event that meets the condition holds
after every run whose events meet it. -/
theorem runAll_invariant (next : σ → ε → σ) (condition : σ → ε → Prop) (invariant : σ → Prop)
    (hstep : ∀ state event, invariant state → condition state event →
      invariant (next state event))
    {events : List ε} (hstart : invariant state) (halong : Along next condition state events) :
    invariant (runAll next state events) := by
  induction events generalizing state with
  | nil => exact hstart
  | cons event rest ih => exact ih (hstep _ _ hstart halong.1) halong.2

/-- Along such a run every event occurs in a state with the invariant. -/
theorem along_invariant (next : σ → ε → σ) (condition : σ → ε → Prop) (invariant : σ → Prop)
    (hstep : ∀ state event, invariant state → condition state event →
      invariant (next state event))
    {events : List ε} (hstart : invariant state) (halong : Along next condition state events) :
    Along next (fun state event => invariant state ∧ condition state event) state events := by
  induction events generalizing state with
  | nil => trivial
  | cons event rest ih =>
      exact ⟨⟨hstart, halong.1⟩, ih (hstep _ _ hstart halong.1) halong.2⟩

/-- Two machines that take each event together stay related. -/
theorem runAll_simulates {τ : Type*} (next : σ → ε → σ) (next' : τ → ε → τ)
    (condition : σ → ε → Prop) (related : σ → τ → Prop)
    (hstep : ∀ state other event, related state other → condition state event →
      related (next state event) (next' other event))
    {other : τ} {events : List ε} (hstart : related state other)
    (halong : Along next condition state events) :
    related (runAll next state events) (runAll next' other events) := by
  induction events generalizing state other with
  | nil => exact hstart
  | cons event rest ih => exact ih (hstep _ _ _ hstart halong.1) halong.2

/-- What every event that is added to the past keeps. -/
theorem runAll_history (next : σ → ε → σ) (told : List ε → σ → Prop)
    (hstep : ∀ past state event, told past state → told (past ++ [event]) (next state event))
    {past : List ε} (hstart : told past state) (events : List ε) :
    told (past ++ events) (runAll next state events) := by
  induction events generalizing past state with
  | nil => simpa using hstart
  | cons event rest ih => simpa using ih (hstep past state event hstart)

/-- An invariant that every event keeps or closes. -/
theorem until_of_invariant {next : σ → ε → σ} {condition : σ → ε → Prop} {holds : σ → Prop}
    {ends : ε → Prop} [DecidablePred ends] {closes : σ → ε → Prop} (invariant : σ → Prop)
    (hholds : ∀ state, invariant state → holds state)
    (hstep : ∀ state event, invariant state → condition state event → ¬ends event →
      invariant (next state event))
    (hends : ∀ state event, invariant state → condition state event → ends event →
      closes state event)
    {events : List ε} (hstart : invariant state) (halong : Along next condition state events) :
    Until next holds ends closes state events := by
  induction events generalizing state with
  | nil => exact hholds state hstart
  | cons event rest ih =>
      refine ⟨hholds state hstart, ?_⟩
      by_cases hevent : ends event
      · rw [if_pos hevent]
        exact hends state event hstart halong.1 hevent
      · rw [if_neg hevent]
        exact ih (hstep state event hstart halong.1 hevent) halong.2

end Rules

end Trun
