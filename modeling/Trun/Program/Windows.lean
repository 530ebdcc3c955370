import Mathlib.Data.List.TakeWhile
import Mathlib.Order.Lattice

/-!
# Queues that forget

A queue of times from which a query drops what has left its window, while what it counts is
still what a full record would give.  `Covers` relates the queue to the record: from a bound
on, the two hold the same entries.
-/

namespace Trun

universe u

variable {α : Type u} [LinearOrder α]

/-- From the threshold on, the queue holds what the record does. -/
def Covers (threshold : α) (queue record : List α) : Prop :=
  ∀ bound, threshold ≤ bound →
    queue.filter (fun time => bound ≤ time) = record.filter fun time => bound ≤ time

/-- On a queue in order of time, dropping from the front drops every entry before the bound. -/
theorem dropWhile_lt_eq_filter {queue : List α} (hsorted : queue.Pairwise (· ≤ ·)) (bound : α) :
    queue.dropWhile (fun time => time < bound) = queue.filter fun time => bound ≤ time := by
  induction queue with
  | nil => rfl
  | cons first rest ih =>
      obtain ⟨hfirst, hrest⟩ := List.pairwise_cons.mp hsorted
      by_cases hlt : first < bound
      · rw [List.dropWhile_cons_of_pos (by simpa using hlt),
          List.filter_cons_of_neg (by simpa using hlt), ih hrest]
      · have hkept : ∀ time ∈ first :: rest, bound ≤ time := by
          intro time hmem
          rcases List.mem_cons.mp hmem with rfl | hmem
          · exact not_lt.mp hlt
          · exact (not_lt.mp hlt).trans (hfirst time hmem)
        rw [List.dropWhile_cons_of_neg (by simpa using hlt),
          List.filter_eq_self.mpr fun time hmem => by simpa using hkept time hmem]

namespace Covers

variable {threshold bound : α} {queue record : List α}

theorem refl (threshold : α) (queue : List α) : Covers threshold queue queue :=
  fun _ _ => rfl

theorem mono (hcovers : Covers threshold queue record) (hle : threshold ≤ bound) :
    Covers bound queue record :=
  fun other hother => hcovers other (hle.trans hother)

/-- A new entry goes to both. -/
theorem append (hcovers : Covers threshold queue record) (time : α) :
    Covers threshold (queue ++ [time]) (record ++ [time]) := by
  intro bound hle
  rw [List.filter_append, List.filter_append, hcovers bound hle]

/-- A query may drop what lies before the threshold. -/
theorem dropWhile (hcovers : Covers threshold queue record) (hle : bound ≤ threshold) :
    Covers threshold (queue.dropWhile fun time => time < bound) record := by
  intro other hother
  have hgone : (queue.takeWhile fun time => decide (time < bound)).filter
      (fun time => decide (other ≤ time)) = [] := by
    rw [List.filter_eq_nil_iff]
    intro time hmem
    have hlt : time < bound := by simpa using List.mem_takeWhile_imp hmem
    simpa using hlt.trans_le (hle.trans hother)
  calc (queue.dropWhile fun time => time < bound).filter (fun time => other ≤ time)
      = ((queue.takeWhile fun time => time < bound) ++
          queue.dropWhile fun time => time < bound).filter fun time => other ≤ time := by
        rw [List.filter_append, hgone, List.nil_append]
    _ = queue.filter fun time => other ≤ time := by rw [List.takeWhile_append_dropWhile]
    _ = record.filter fun time => other ≤ time := hcovers other hother

/-- What the query leaves is what the record has from the threshold on. -/
theorem dropWhile_eq (hcovers : Covers threshold queue record)
    (hsorted : queue.Pairwise (· ≤ ·)) :
    queue.dropWhile (fun time => time < threshold) =
      record.filter fun time => threshold ≤ time :=
  (dropWhile_lt_eq_filter hsorted threshold).trans (hcovers threshold le_rfl)

end Covers

end Trun
