import Mathlib.Data.List.Chain
import Mathlib.Data.List.Nodup
import Mathlib.Logic.Function.Basic
import Trun.Program.Fuel

/-!
# Rings of doubly linked cells

The cells of a ring are linked forwards and backwards through a sentinel.  A new cell is linked
before the sentinel, a cell is unlinked by linking its neighbours, and following the links from
the sentinel meets every cell once.
-/

namespace Trun.Program

open Function

variable {ρ : Type} {next prev : ρ → ρ} {sentinel cell : ρ} {cells before after : List ρ}

/-- The one cell is followed by the other. -/
def Linked (next prev : ρ → ρ) (left right : ρ) : Prop := next left = right ∧ prev right = left

/-- The links lead from the sentinel through the cells and back. -/
structure IsRing (next prev : ρ → ρ) (sentinel : ρ) (cells : List ρ) : Prop where
  nodup : (sentinel :: cells).Nodup
  linked : (sentinel :: cells ++ [sentinel]).IsChain (Linked next prev)

namespace IsRing

theorem nil (hnext : next sentinel = sentinel) (hprev : prev sentinel = sentinel) :
    IsRing next prev sentinel [] where
  nodup := List.nodup_singleton sentinel
  linked := List.isChain_pair.mpr ⟨hnext, hprev⟩

/-- The ring is one in the other direction. -/
theorem reverse (hring : IsRing next prev sentinel cells) :
    IsRing prev next sentinel cells.reverse where
  nodup := by simpa using hring.nodup
  linked := by
    have hcells : sentinel :: cells.reverse ++ [sentinel] =
        (sentinel :: cells ++ [sentinel]).reverse := by simp
    rw [hcells, List.isChain_reverse]
    exact hring.linked.imp fun _ _ h => ⟨h.2, h.1⟩

theorem next_sentinel (hring : IsRing next prev sentinel (cell :: cells)) :
    next sentinel = cell :=
  (List.isChain_cons_cons.mp hring.linked).1.1

theorem prev_sentinel (hring : IsRing next prev sentinel (cells ++ [cell])) :
    prev sentinel = cell := by
  have hreverse := hring.reverse
  rw [List.reverse_append] at hreverse
  exact hreverse.next_sentinel

theorem prev_sentinel_mem (hring : IsRing next prev sentinel cells) :
    prev sentinel ∈ sentinel :: cells := by
  obtain rfl | ⟨front, last, rfl⟩ := List.eq_nil_or_concat' cells
  · rw [(List.isChain_pair.mp hring.linked).2]
    exact List.mem_cons_self
  · rw [hring.prev_sentinel]
    simp

end IsRing

/-- Links that are not written stay. -/
theorem isChain_linked_congr {next' prev' : ρ → ρ} {path : List ρ}
    (hchain : path.IsChain (Linked next prev)) (hnext : ∀ x ∈ path.dropLast, next' x = next x)
    (hprev : ∀ x ∈ path.tail, prev' x = prev x) : path.IsChain (Linked next' prev') := by
  induction hchain with
  | nil => exact .nil
  | singleton => exact .singleton _
  | @cons_cons left right rest hlink _ ih =>
      rw [List.dropLast_cons_cons, List.forall_mem_cons] at hnext
      rw [List.tail_cons, List.forall_mem_cons] at hprev
      exact .cons_cons ⟨hnext.1.trans hlink.1, hprev.1.trans hlink.2⟩ (ih hnext.2 hprev.2)

/-- Two paths are joined by linking the end of the first to the start of the second. -/
theorem isChain_linked_join {next' prev' : ρ → ρ} {front back : List ρ} {left right : ρ}
    (hfront : (front ++ [left]).IsChain (Linked next prev))
    (hback : (right :: back).IsChain (Linked next prev)) (hnodup : (front ++ [left]).Nodup)
    (hnodup' : (right :: back).Nodup) (hleft : left ∉ (right :: back).dropLast)
    (hright : right ∉ (front ++ [left]).tail) (hlink : Linked next' prev' left right)
    (hnext : ∀ x, x ≠ left → next' x = next x) (hprev : ∀ x, x ≠ right → prev' x = prev x) :
    (front ++ left :: right :: back).IsChain (Linked next' prev') := by
  rw [List.isChain_append_cons_cons]
  refine ⟨isChain_linked_congr hfront ?_ ?_, hlink, isChain_linked_congr hback ?_ ?_⟩
  · intro x hx
    rw [List.dropLast_concat] at hx
    refine hnext x ?_
    rintro rfl
    exact (List.nodup_append.mp hnodup).2.2 x hx x (List.mem_singleton_self x) rfl
  · exact fun x hx => hprev x fun heq => hright (heq ▸ hx)
  · exact fun x hx => hnext x fun heq => hleft (heq ▸ hx)
  · exact fun x hx => hprev x fun heq => (List.nodup_cons.mp hnodup').1 (heq ▸ hx)

namespace IsRing

variable {next' prev' : ρ → ρ}

private theorem exists_concat (cells : List ρ) (sentinel : ρ) :
    ∃ front last, sentinel :: cells = front ++ [last] := by
  obtain h | ⟨front, last, h⟩ := List.eq_nil_or_concat (sentinel :: cells)
  · cases h
  · exact ⟨front, last, by rw [h, List.concat_eq_append]⟩

/-- A new cell between the last one and the sentinel. -/
theorem push (hring : IsRing next prev sentinel cells) (hfresh : cell ∉ sentinel :: cells)
    (hlast : next' (prev sentinel) = cell) (hcell : next' cell = sentinel)
    (hcell' : prev' cell = prev sentinel) (hsentinel : prev' sentinel = cell)
    (hnext : ∀ x, x ≠ prev sentinel → x ≠ cell → next' x = next x)
    (hprev : ∀ x, x ≠ sentinel → x ≠ cell → prev' x = prev x) :
    IsRing next' prev' sentinel (cells ++ [cell]) := by
  have hnodup : (sentinel :: (cells ++ [cell])).Nodup := by
    rw [← List.cons_append, List.nodup_append_comm]
    exact List.nodup_cons.mpr ⟨hfresh, hring.nodup⟩
  refine ⟨hnodup, ?_⟩
  obtain ⟨front, last, hcells⟩ := exists_concat cells sentinel
  have hlinked := hring.linked
  have hnew := hring.nodup
  rw [hcells] at hlinked hnew
  rw [List.append_assoc, List.singleton_append, List.isChain_append_cons_cons] at hlinked
  obtain ⟨hfront, ⟨-, hback⟩, -⟩ := hlinked
  rw [hback] at hlast hcell' hnext
  -- the last cell's forward link and the sentinel's backward link are the written ones
  have hkept : (front ++ [last]).IsChain (Linked next' prev') := by
    apply isChain_linked_congr hfront
    · intro x hx
      rw [List.dropLast_concat] at hx
      refine hnext x ?_ ?_
      · rintro rfl
        exact List.nodup_append.mp hnew |>.2.2 x hx x (List.mem_singleton_self x) rfl
      · rintro rfl
        exact hfresh (hcells ▸ List.mem_append_left _ hx)
    · intro x hx
      rw [← hcells, List.tail_cons] at hx
      refine hprev x ?_ ?_
      · rintro rfl
        exact (List.nodup_cons.mp hring.nodup).1 hx
      · rintro rfl
        exact hfresh (List.mem_cons_of_mem _ hx)
  rw [← List.cons_append, hcells]
  simp only [List.append_assoc, List.cons_append, List.nil_append,
    List.isChain_append_cons_cons, List.isChain_pair]
  exact ⟨hkept, ⟨hlast, hcell'⟩, hcell, hsentinel⟩

/-- A cell is taken out by linking its neighbours. -/
theorem unlink (hring : IsRing next prev sentinel (before ++ cell :: after))
    (hleft : next' (prev cell) = next cell) (hright : prev' (next cell) = prev cell)
    (hnext : ∀ x, x ≠ prev cell → next' x = next x)
    (hprev : ∀ x, x ≠ next cell → prev' x = prev x) :
    IsRing next' prev' sentinel (before ++ after) := by
  have hnodup := hring.nodup
  have hlinked := hring.linked
  rw [← List.cons_append] at hnodup
  obtain ⟨front, left, hbefore⟩ := exists_concat before sentinel
  obtain ⟨right, back, hafter⟩ : ∃ right back, after ++ [sentinel] = right :: back :=
    List.exists_cons_of_ne_nil (by simp)
  have hpath : sentinel :: (before ++ cell :: after) ++ [sentinel] =
      front ++ left :: cell :: right :: back := by
    rw [← List.cons_append, hbefore, List.append_assoc, List.cons_append, hafter]
    simp
  rw [hpath, List.isChain_append_cons_cons, List.isChain_cons_cons] at hlinked
  obtain ⟨hfront, ⟨-, hprevCell⟩, ⟨hnextCell, -⟩, hback⟩ := hlinked
  rw [hprevCell, hnextCell] at hleft hright
  rw [hprevCell] at hnext
  rw [hnextCell] at hprev
  obtain ⟨hnodupBefore, hnodupAfter, hapart⟩ := List.nodup_append.mp hnodup
  have hsentinel : sentinel ∉ cell :: after := fun hmem =>
    hapart sentinel List.mem_cons_self sentinel hmem rfl
  have hnodupBack : (right :: back).Nodup := by
    rw [← hafter, List.nodup_append_comm]
    exact List.nodup_cons.mpr
      ⟨fun h => hsentinel (List.mem_cons_of_mem _ h), (List.nodup_cons.mp hnodupAfter).2⟩
  have hleftMem : left ∈ sentinel :: before := by simp [hbefore]
  have hrightMem : right ∈ after ++ [sentinel] := by simp [hafter]
  refine ⟨hnodup.sublist ?_, ?_⟩
  · exact (List.sublist_cons_self cell after).append_left (sentinel :: before)
  rw [← List.cons_append, hbefore, List.append_assoc, hafter, List.append_assoc,
    List.singleton_append]
  apply isChain_linked_join hfront hback (hbefore ▸ hnodupBefore) hnodupBack _ _ ⟨hleft, hright⟩
    hnext hprev
  · rw [← hafter, List.dropLast_concat]
    exact fun hx => hapart left hleftMem left (List.mem_cons_of_mem _ hx) rfl
  · rw [← hbefore, List.tail_cons]
    intro hx
    obtain h | h := List.mem_append.mp hrightMem
    · exact hapart right (List.mem_cons_of_mem _ hx) right (List.mem_cons_of_mem _ h) rfl
    · exact (List.nodup_cons.mp hnodupBefore).1 (List.mem_singleton.mp h ▸ hx)

end IsRing

/-! ## Walking the links -/

/-- Follow the links up to the sentinel; `none` where the fuel runs out. -/
def walk [DecidableEq ρ] (next : ρ → ρ) (sentinel : ρ) : ℕ → ρ → Option (List ρ)
  | 0, _ => none
  | fuel + 1, curr =>
      if curr = sentinel then some []
      else (walk next sentinel fuel (next curr)).map (curr :: ·)

theorem walk_of_isChain [DecidableEq ρ] {start : ρ} (hnew : sentinel ∉ cells)
    (hlinked : (start :: cells ++ [sentinel]).IsChain (Linked next prev)) :
    Yields (fun fuel => walk next sentinel fuel (next start)) cells := by
  induction cells generalizing start with
  | nil =>
      have hstart : next start = sentinel := (List.isChain_pair.mp hlinked).1
      exact .succ (fun _ => by rw [walk, if_pos hstart]) (.of_eq fun _ => rfl)
  | cons cell rest ih =>
      rw [List.cons_append, List.cons_append, List.isChain_cons_cons] at hlinked
      obtain ⟨hcell, hrest⟩ := List.ne_and_not_mem_of_not_mem_cons hnew
      have hne : next start ≠ sentinel := hlinked.1.1.trans_ne (Ne.symm hcell)
      have hrest' : Yields (fun fuel => (walk next sentinel fuel (next cell)).bind
          fun rest => some (cell :: rest)) (cell :: rest) :=
        (ih hrest hlinked.2).bind (.of_eq fun _ => rfl)
      refine hrest'.succ fun fuel => ?_
      rw [walk, if_neg hne, hlinked.1.1, Option.map_eq_bind]
      rfl

/-- Following the links from the sentinel meets every cell once. -/
theorem IsRing.walk [DecidableEq ρ] (hring : IsRing next prev sentinel cells) :
    Yields (fun fuel => Program.walk next sentinel fuel (next sentinel)) cells :=
  walk_of_isChain (List.nodup_cons.mp hring.nodup).1 hring.linked

end Trun.Program
