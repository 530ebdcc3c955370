import Mathlib.Logic.Basic

/-!
# Programs with state and exceptions

A request handler that raises leaves behind the state it had reached, so the
state survives an exception.  A `Contract` collects what every program built
from some primitives promises: an invariant, a relation between the first and
the last state, and the exceptions it may end in.  The rules below carry a
contract through the constructs of such programs.
-/

namespace Trun

variable {ε σ α β : Type}

/-- Programs over a state `σ` that may raise `ε` and then keep their state. -/
abbrev Program (ε σ α : Type) := ExceptT ε (StateM σ) α

namespace Program

/-- Outcome and last state of a program. -/
def exec (program : Program ε σ α) (state : σ) : Except ε α × σ :=
  StateT.run (ExceptT.run program) state

def result (program : Program ε σ α) (state : σ) : Except ε α := (program.exec state).1
def final (program : Program ε σ α) (state : σ) : σ := (program.exec state).2

@[simp] theorem exec_pure (value : α) (state : σ) :
    exec (pure value : Program ε σ α) state = (.ok value, state) := rfl

@[simp] theorem exec_throw (error : ε) (state : σ) :
    exec (throw error : Program ε σ α) state = (.error error, state) := rfl

@[simp] theorem exec_get (state : σ) :
    exec (get : Program ε σ σ) state = (.ok state, state) := rfl

@[simp] theorem exec_modify (change : σ → σ) (state : σ) :
    exec (modify change : Program ε σ PUnit) state = (.ok ⟨⟩, change state) := rfl

theorem exec_bind (program : Program ε σ α) (next : α → Program ε σ β) (state : σ) :
    exec (program >>= next) state =
      match program.exec state with
      | (.ok value, state') => (next value).exec state'
      | (.error error, state') => (.error error, state') := by
  rcases hrun : program.exec state with ⟨_ | value, state'⟩
  all_goals simp only [exec, StateT.run, ExceptT.run] at hrun
  · simp [exec, bind, ExceptT.bind, ExceptT.mk, StateT.bind, StateT.run,
      ExceptT.run, ExceptT.bindCont, hrun]
    rfl
  · simp [exec, bind, ExceptT.bind, ExceptT.mk, StateT.bind, StateT.run,
      ExceptT.run, ExceptT.bindCont, hrun]

theorem exec_bind_ok {program : Program ε σ α} {next : α → Program ε σ β}
    {state state' : σ} {value : α} (hrun : program.exec state = (.ok value, state')) :
    exec (program >>= next) state = (next value).exec state' := by
  rw [exec_bind, hrun]

theorem exec_bind_error {program : Program ε σ α} {next : α → Program ε σ β}
    {state state' : σ} {error : ε} (hrun : program.exec state = (.error error, state')) :
    exec (program >>= next) state = (.error error, state') := by
  rw [exec_bind, hrun]

/-- A bind that returns has run both programs. -/
theorem exec_bind_eq_ok {program : Program ε σ α} {next : α → Program ε σ β}
    {state last : σ} {value : β} (hrun : exec (program >>= next) state = (.ok value, last)) :
    ∃ first middle, program.exec state = (.ok first, middle) ∧
      (next first).exec middle = (.ok value, last) := by
  rw [exec_bind] at hrun
  rcases hfirst : program.exec state with ⟨error | first, middle⟩
  · rw [hfirst] at hrun
    cases hrun
  · rw [hfirst] at hrun
    exact ⟨first, middle, rfl, hrun⟩

@[simp] theorem exec_get_bind (next : σ → Program ε σ β) (state : σ) :
    exec (get >>= next) state = (next state).exec state := rfl

@[simp] theorem exec_modify_bind (change : σ → σ) (next : PUnit → Program ε σ β)
    (state : σ) :
    exec (modify change >>= next) state = (next ⟨⟩).exec (change state) := rfl

/-- An attempt that does not raise. -/
theorem exec_tryCatch_ok {program : Program ε σ α}
    {handler : ε → Program ε σ α} {state last : σ} {value : α}
    (hrun : program.exec state = (.ok value, last)) :
    exec (tryCatch program handler) state = (.ok value, last) := by
  simp only [exec, StateT.run, ExceptT.run] at hrun
  simp [exec, tryCatch, tryCatchThe, MonadExceptOf.tryCatch, ExceptT.tryCatch, ExceptT.mk,
    ExceptT.run, StateT.run, bind, StateT.bind, hrun]
  rfl

/-- An attempt that raises goes on with the handler. -/
theorem exec_tryCatch_error {program : Program ε σ α}
    {handler : ε → Program ε σ α} {state last : σ} {error : ε}
    (hrun : program.exec state = (.error error, last)) :
    exec (tryCatch program handler) state = (handler error).exec last := by
  simp only [exec, StateT.run, ExceptT.run] at hrun
  simp [exec, tryCatch, tryCatchThe, MonadExceptOf.tryCatch, ExceptT.tryCatch, ExceptT.mk,
    ExceptT.run, StateT.run, bind, StateT.bind, hrun]

/-- What a loop that returns has done: each round relates the states around it and
establishes something that later rounds keep. -/
theorem exec_forM_ok (rel : σ → σ → Prop) (post : α → σ → Prop) (hrefl : ∀ state, rel state state)
    (htrans : ∀ {first middle last}, rel first middle → rel middle last → rel first last)
    (hkept : ∀ item {first last}, rel first last → post item first → post item last)
    {items : List α} {body : α → Program ε σ PUnit}
    (hbody : ∀ item ∈ items, ∀ {first last}, (body item).exec first = (.ok ⟨⟩, last) →
      rel first last ∧ post item last)
    {state last : σ} (hrun : (items.forM body).exec state = (.ok ⟨⟩, last)) :
    rel state last ∧ ∀ item ∈ items, post item last := by
  induction items generalizing state with
  | nil =>
      cases hrun
      exact ⟨hrefl _, fun _ h => by cases h⟩
  | cons item rest ih =>
      obtain ⟨_, middle, hfirst, hrest⟩ :=
        @exec_bind_eq_ok _ _ _ _ (body item) (fun _ => rest.forM body) _ _ _ hrun
      obtain ⟨hrel, hpost⟩ := hbody item (List.mem_cons_self ..) hfirst
      obtain ⟨hrel', hposts⟩ := ih
        (fun other hother => hbody other (List.mem_cons_of_mem _ hother)) hrest
      refine ⟨htrans hrel hrel', fun other hother => ?_⟩
      rcases List.mem_cons.mp hother with rfl | hmem
      · exact hkept other hrel' hpost
      · exact hposts other hmem

/-! ## Contracts -/

/-- What every program built from some primitives promises. -/
structure Contract (ε σ : Type) where
  /-- Kept by every program. -/
  inv : σ → Prop
  /-- Relates the state before a program to the state after it. -/
  rel : σ → σ → Prop
  /-- The exceptions a program may end in. -/
  allows : ε → Prop
  refl : ∀ state, rel state state
  trans : ∀ {first middle last}, rel first middle → rel middle last → rel first last

/-- The program fulfils the contract when it is started in `state`. -/
def Meets (contract : Contract ε σ) (program : Program ε σ α) (state : σ) : Prop :=
  contract.inv (program.final state) ∧ contract.rel state (program.final state) ∧
    ∀ error, program.result state = .error error → contract.allows error

/-- The program fulfils the contract wherever the invariant holds. -/
def Honours (contract : Contract ε σ) (program : Program ε σ α) : Prop :=
  ∀ state, contract.inv state → Meets contract program state

section Rules

variable {contract : Contract ε σ} {state : σ}

theorem Meets.pure (value : α) (hinv : contract.inv state) :
    Meets contract (pure value : Program ε σ α) state :=
  ⟨hinv, contract.refl state, fun _ h => by cases h⟩

/-- A program whose outcome and last state are known. -/
theorem Meets.of_exec {program : Program ε σ α} {outcome : Except ε α} {state' : σ}
    (hrun : program.exec state = (outcome, state')) (hinv : contract.inv state')
    (hrel : contract.rel state state')
    (hallowed : ∀ error, outcome = .error error → contract.allows error) :
    Meets contract program state := by
  simp only [Meets, final, result, hrun]
  exact ⟨hinv, hrel, hallowed⟩

theorem Meets.throw {error : ε} (hinv : contract.inv state)
    (hallowed : contract.allows error) :
    Meets contract (throw error : Program ε σ α) state :=
  ⟨hinv, contract.refl state, fun _ h => by cases h; exact hallowed⟩

theorem Meets.modify {change : σ → σ} (hinv : contract.inv (change state))
    (hrel : contract.rel state (change state)) :
    Meets contract (modify change : Program ε σ PUnit) state :=
  ⟨hinv, hrel, fun _ h => by cases h⟩

/-- Sequential composition; the second program may use what the first one
returned and the state it left. -/
theorem Meets.bind {program : Program ε σ α} {next : α → Program ε σ β}
    (hfirst : Meets contract program state)
    (hnext : ∀ value state', program.exec state = (.ok value, state') →
      contract.inv state' → Meets contract (next value) state') :
    Meets contract (program >>= next) state := by
  obtain ⟨hinv, hrel, hallows⟩ := hfirst
  rcases hrun : program.exec state with ⟨error | value, state'⟩
  · simp only [final, result, hrun] at hinv hrel hallows
    simp only [Meets, final, result, exec_bind, hrun]
    exact ⟨hinv, hrel, fun _ h => by cases h; exact hallows error rfl⟩
  · simp only [final, hrun] at hinv hrel
    obtain ⟨hinv', hrel', hallows'⟩ := hnext value state' hrun hinv
    simp only [Meets, final, result, exec_bind, hrun]
    exact ⟨hinv', contract.trans hrel hrel', hallows'⟩

theorem Meets.get_bind {next : σ → Program ε σ β} (hnext : Meets contract (next state) state) :
    Meets contract (get >>= next) state :=
  hnext

theorem Meets.ite {condition : Prop} [Decidable condition] {yes no : Program ε σ α}
    (hyes : condition → Meets contract yes state)
    (hno : ¬condition → Meets contract no state) :
    Meets contract (if condition then yes else no) state := by
  split
  · exact hyes ‹_›
  · exact hno ‹_›

theorem Honours.bind {program : Program ε σ α} {next : α → Program ε σ β}
    (hfirst : Honours contract program) (hnext : ∀ value, Honours contract (next value)) :
    Honours contract (program >>= next) := fun state hinv =>
  (hfirst state hinv).bind fun value state' _ hinv' => hnext value state' hinv'

theorem Honours.pure (value : α) : Honours contract (Pure.pure value : Program ε σ α) :=
  fun _ hinv => Meets.pure value hinv

/-- A program that only reads the state. -/
theorem Honours.get : Honours contract (MonadState.get : Program ε σ σ) :=
  fun state hinv => ⟨hinv, contract.refl state, fun _ h => by cases h⟩

/-- An attempt with a handler, which goes on in the state that the attempt left. -/
theorem Honours.tryCatch {program : Program ε σ α} {handler : ε → Program ε σ α}
    (hprogram : Honours contract program) (hhandler : ∀ error, Honours contract (handler error)) :
    Honours contract (tryCatch program handler) := by
  intro state hinv
  obtain ⟨hinv', hrel, hallows⟩ := hprogram state hinv
  rcases hrun : program.exec state with ⟨error | value, state'⟩
  · simp only [final, hrun] at hinv' hrel
    obtain ⟨hinv'', hrel', hallows'⟩ := hhandler error state' hinv'
    simp only [Meets, final, result, exec_tryCatch_error hrun]
    exact ⟨hinv'', contract.trans hrel hrel', hallows'⟩
  · simp only [final, hrun] at hinv' hrel
    exact Meets.of_exec (exec_tryCatch_ok hrun) hinv' hrel fun _ h => by cases h

/-- A contract promises no less than another one. -/
structure Contract.Covers (contract weaker : Contract ε σ) : Prop where
  inv : ∀ {state}, contract.inv state → weaker.inv state
  rel : ∀ {first last}, contract.rel first last → weaker.rel first last
  allows : ∀ {error}, contract.allows error → weaker.allows error

theorem Meets.covers {weaker : Contract ε σ} (hcovers : contract.Covers weaker)
    {program : Program ε σ α} (hmeets : Meets contract program state) :
    Meets weaker program state :=
  ⟨hcovers.inv hmeets.1, hcovers.rel hmeets.2.1,
    fun error h => hcovers.allows (hmeets.2.2 error h)⟩

/-- Sequential composition if the first program promises more than both together have to. -/
theorem Meets.bind_covers {weaker : Contract ε σ} (hcovers : contract.Covers weaker)
    {program : Program ε σ α} {next : α → Program ε σ β} (hfirst : Meets contract program state)
    (hnext : ∀ value state', contract.inv state' → Meets weaker (next value) state') :
    Meets weaker (program >>= next) state := by
  refine (hfirst.covers hcovers).bind fun value state' hrun _ => ?_
  have hinv := hfirst.1
  rw [final, hrun] at hinv
  exact hnext value state' hinv

/-- No more than that the program returns. -/
def returning : Contract ε σ where
  inv _ := True
  rel _ _ := True
  allows _ := False
  refl _ := trivial
  trans _ _ := trivial

theorem Meets.returns {program : Program ε σ α} (hmeets : Meets returning program state) :
    ∃ value state', program.exec state = (.ok value, state') := by
  rcases hrun : program.exec state with ⟨error | value, state'⟩
  · exact (hmeets.2.2 error (by rw [result, hrun])).elim
  · exact ⟨value, state', rfl⟩

/-- A loop keeps what its body keeps. -/
theorem Honours.forM {items : List α} {body : α → Program ε σ PUnit}
    (hbody : ∀ item ∈ items, Honours contract (body item)) :
    Honours contract (items.forM body) := by
  induction items with
  | nil => exact Honours.pure PUnit.unit
  | cons item rest ih =>
      change Honours contract (body item >>= fun _ => rest.forM body)
      refine (hbody item (List.mem_cons_self ..)).bind fun _ => ?_
      exact ih fun other hother => hbody other (List.mem_cons_of_mem _ hother)

end Rules

end Program

end Trun
