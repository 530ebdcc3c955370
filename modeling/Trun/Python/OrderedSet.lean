import Mathlib.Data.List.Nodup
import Mathlib.Data.List.Dedup
import Mathlib.Data.List.Perm.Basic

/-!
# Duplicate-free collections with an iteration order

`OrderedSet` is a set together with the order in which it is iterated.  The
scheduler's own `OrderedSet` class appends new keys at the end.  A builtin
Python `set` promises no order: it may come out in any order after any change,
which is what a `HashOrder` chooses.
-/

namespace Trun

universe u

/-- The order in which a builtin `set` with the given elements is iterated. -/
structure HashOrder (α : Type u) where
  arrange : List α → List α
  perm : ∀ elems, (arrange elems).Perm elems

namespace HashOrder

variable {α : Type u}

/-- The order in which every element stays where it was inserted. -/
def insertion : HashOrder α := ⟨id, fun _ => .refl _⟩

instance : Inhabited (HashOrder α) := ⟨insertion⟩

@[simp] theorem mem_arrange (order : HashOrder α) (elems : List α) (x : α) :
    x ∈ order.arrange elems ↔ x ∈ elems :=
  (order.perm elems).mem_iff

end HashOrder

/-- A set with its iteration order. -/
structure OrderedSet (α : Type u) where
  elems : List α
  nodup : elems.Nodup
  deriving DecidableEq

namespace OrderedSet

variable {α : Type u}

def empty : OrderedSet α := ⟨[], List.nodup_nil⟩

instance : EmptyCollection (OrderedSet α) := ⟨empty⟩
instance : Inhabited (OrderedSet α) := ⟨∅⟩
instance : Membership α (OrderedSet α) := ⟨fun elements x => x ∈ elements.elems⟩

instance [DecidableEq α] (x : α) (elements : OrderedSet α) : Decidable (x ∈ elements) :=
  inferInstanceAs (Decidable (x ∈ elements.elems))

def size (elements : OrderedSet α) : ℕ := elements.elems.length

/-- `peek(last=True)`; `none` where the source raises `KeyError`. -/
def peekLast (elements : OrderedSet α) : Option α := elements.elems.getLast?

theorem mem_def (x : α) (elements : OrderedSet α) : x ∈ elements ↔ x ∈ elements.elems :=
  Iff.rfl

@[simp] theorem elems_empty : (∅ : OrderedSet α).elems = [] := rfl
@[simp] theorem not_mem_empty (x : α) : x ∉ (∅ : OrderedSet α) := List.not_mem_nil

/-- The same elements in the order of a builtin `set`. -/
def rehash (order : HashOrder α) (elements : OrderedSet α) : OrderedSet α :=
  ⟨order.arrange elements.elems, (order.perm _).nodup_iff.mpr elements.nodup⟩

@[simp] theorem mem_rehash (order : HashOrder α) (elements : OrderedSet α) (x : α) :
    x ∈ elements.rehash order ↔ x ∈ elements :=
  order.mem_arrange elements.elems x

variable [DecidableEq α]

/-- `set.add(x)`: a new element goes to the end. -/
def add (elements : OrderedSet α) (x : α) : OrderedSet α :=
  if hmem : x ∈ elements.elems then elements
  else ⟨elements.elems ++ [x], by
    rw [List.nodup_append]
    refine ⟨elements.nodup, List.nodup_singleton x, fun y hy z hz heq => hmem ?_⟩
    rwa [← List.mem_singleton.mp hz, ← heq]⟩

/-- `set.update(xs)`. -/
def addAll (elements : OrderedSet α) (xs : List α) : OrderedSet α :=
  xs.foldl add elements

/-- `set(xs)`. -/
def ofList (xs : List α) : OrderedSet α := addAll ∅ xs

/-- `set -= xs`. -/
def removeAll (elements : OrderedSet α) (xs : List α) : OrderedSet α :=
  ⟨elements.elems.filter fun x => x ∉ xs, elements.nodup.filter _⟩

@[simp] theorem mem_add (elements : OrderedSet α) (x y : α) :
    y ∈ elements.add x ↔ y = x ∨ y ∈ elements := by
  by_cases hmem : x ∈ elements.elems
  · simp only [add, hmem, dite_true, mem_def]
    exact ⟨Or.inr, fun h => h.elim (fun heq => heq ▸ hmem) id⟩
  · simp [add, hmem, mem_def, or_comm]

@[simp] theorem mem_addAll (elements : OrderedSet α) (xs : List α) (y : α) :
    y ∈ elements.addAll xs ↔ y ∈ xs ∨ y ∈ elements := by
  induction xs generalizing elements with
  | nil => simp [addAll]
  | cons x rest ih =>
      have hstep : elements.addAll (x :: rest) = (elements.add x).addAll rest := rfl
      rw [hstep, ih, mem_add, List.mem_cons]
      tauto

@[simp] theorem mem_ofList (xs : List α) (y : α) : y ∈ ofList xs ↔ y ∈ xs := by
  simp [ofList]

@[simp] theorem mem_removeAll (elements : OrderedSet α) (xs : List α) (y : α) :
    y ∈ elements.removeAll xs ↔ y ∈ elements ∧ y ∉ xs := by
  simp [removeAll, mem_def]

end OrderedSet

end Trun
