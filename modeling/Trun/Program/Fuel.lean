import Mathlib.Order.Lattice
import Trun.Program.Contract

/-!
# Programs with fuel

A loop without a bound takes the number of its rounds as fuel.  It settles when
from some amount on it comes to the same end, however much fuel it is given.
-/

namespace Trun.Program

variable {ε σ α β : Type} {state middle last : σ} {value : α} {result : β}

/-- With enough fuel the program ends in one way. -/
def Settles (program : ℕ → Program ε σ α) (state : σ) (value : α) (last : σ) : Prop :=
  ∃ bound, ∀ fuel, bound ≤ fuel → (program fuel).exec state = (.ok value, last)

namespace Settles

/-- A program that needs no fuel. -/
theorem of_exec {program : Program ε σ α} (hrun : program.exec state = (.ok value, last)) :
    Settles (fun _ => program) state value last := ⟨0, fun _ _ => hrun⟩

/-- A program settles in one way. -/
theorem unique {program : ℕ → Program ε σ α} {other : α} {last' : σ}
    (h : Settles program state value last) (h' : Settles program state other last') :
    value = other ∧ last = last' := by
  obtain ⟨bound, hbound⟩ := h
  obtain ⟨bound', hbound'⟩ := h'
  have heq := (hbound (max bound bound') (le_max_left ..)).symm.trans
    (hbound' (max bound bound') (le_max_right ..))
  rw [Prod.mk.injEq, Except.ok.injEq] at heq
  exact heq

/-- One round, whose outcome does not depend on the fuel, and what follows it. -/
theorem round {program next : ℕ → Program ε σ α}
    (hround : ∀ fuel, (program (fuel + 1)).exec state = (next fuel).exec middle)
    (hnext : Settles next middle value last) : Settles program state value last := by
  obtain ⟨bound, hbound⟩ := hnext
  refine ⟨bound + 1, fun fuel hfuel => ?_⟩
  obtain ⟨fuel, rfl⟩ := Nat.exists_eq_add_of_le' (Nat.le_of_add_left_le hfuel)
  exact (hround fuel).trans (hbound fuel (Nat.le_of_succ_le_succ hfuel))

theorem bind {program : ℕ → Program ε σ α} {next : ℕ → α → Program ε σ β}
    (hfirst : Settles program state value middle)
    (hnext : Settles (fun fuel => next fuel value) middle result last) :
    Settles (fun fuel => program fuel >>= next fuel) state result last := by
  obtain ⟨bound, hbound⟩ := hfirst
  obtain ⟨bound', hbound'⟩ := hnext
  refine ⟨max bound bound', fun fuel hfuel => ?_⟩
  rw [exec_bind_ok (hbound fuel ((le_max_left bound bound').trans hfuel))]
  exact hbound' fuel ((le_max_right bound bound').trans hfuel)

/-- Programs that do the same from here. -/
theorem congr {program other : ℕ → Program ε σ α}
    (hsame : ∀ fuel, (program fuel).exec state = (other fuel).exec middle)
    (hother : Settles other middle value last) : Settles program state value last := by
  obtain ⟨bound, hbound⟩ := hother
  exact ⟨bound, fun fuel hfuel => (hsame fuel).trans (hbound fuel hfuel)⟩

end Settles

/-! ## Functions with fuel -/

/-- With enough fuel the function returns the value. -/
def Yields (run : ℕ → Option α) (value : α) : Prop :=
  ∃ bound, ∀ fuel, bound ≤ fuel → run fuel = some value

namespace Yields

theorem of_eq {run : ℕ → Option α} (hrun : ∀ fuel, run fuel = some value) : Yields run value :=
  ⟨0, fun fuel _ => hrun fuel⟩

theorem unique {run : ℕ → Option α} {other : α} (h : Yields run value) (h' : Yields run other) :
    value = other := by
  obtain ⟨bound, hbound⟩ := h
  obtain ⟨bound', hbound'⟩ := h'
  have hvalue := hbound (max bound bound') (le_max_left ..)
  exact Option.some.inj (hvalue.symm.trans (hbound' _ (le_max_right ..)))

theorem succ {run next : ℕ → Option α} (hround : ∀ fuel, run (fuel + 1) = next fuel)
    (hnext : Yields next value) : Yields run value := by
  obtain ⟨bound, hbound⟩ := hnext
  refine ⟨bound + 1, fun fuel hfuel => ?_⟩
  obtain ⟨fuel, rfl⟩ := Nat.exists_eq_add_of_le' (Nat.le_of_add_left_le hfuel)
  exact (hround fuel).trans (hbound fuel (Nat.le_of_succ_le_succ hfuel))

theorem bind {run : ℕ → Option α} {next : ℕ → α → Option β} (hfirst : Yields run value)
    (hnext : Yields (fun fuel => next fuel value) result) :
    Yields (fun fuel => (run fuel).bind (next fuel)) result := by
  obtain ⟨bound, hbound⟩ := hfirst
  obtain ⟨bound', hbound'⟩ := hnext
  refine ⟨max bound bound', fun fuel hfuel => ?_⟩
  dsimp only
  rw [hbound fuel ((le_max_left bound bound').trans hfuel), Option.bind_some]
  exact hbound' fuel ((le_max_right bound bound').trans hfuel)

/-- A loop whose rounds keep an invariant of the items that it has met. -/
theorem foldlM {inv : List β → α → Prop} {body : ℕ → α → β → Option α} {items : List β}
    (hbody : ∀ before item after value, items = before ++ item :: after → inv before value →
      ∃ last, Yields (fun fuel => body fuel value item) last ∧ inv (before ++ [item]) last)
    (hvalue : inv [] value) :
    ∃ last, Yields (fun fuel => items.foldlM (body fuel) value) last ∧ inv items last := by
  suffices h : ∀ before rest value, items = before ++ rest → inv before value →
      ∃ last, Yields (fun fuel => rest.foldlM (body fuel) value) last ∧ inv items last from
    h [] items value rfl hvalue
  intro before rest
  induction rest generalizing before with
  | nil =>
      intro value hitems hinv
      rw [List.append_nil] at hitems
      exact ⟨value, of_eq fun _ => rfl, hitems ▸ hinv⟩
  | cons item rest ih =>
      intro value hitems hinv
      obtain ⟨middle, hmiddle, hinv⟩ := hbody before item rest value hitems hinv
      obtain ⟨last, hlast, hinv⟩ := ih (before ++ [item]) middle (by rw [hitems]; simp) hinv
      exact ⟨last, hmiddle.bind hlast, hinv⟩

end Yields

end Trun.Program
