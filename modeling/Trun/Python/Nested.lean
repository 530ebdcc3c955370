import Mathlib.Data.List.Flatten

/-!
# Nested structures

The structures of dicts, lists and tuples that requirements and outputs come
in, with `flatten` and the replacement of every item by a structure.
-/

namespace Trun

universe u v

/-- A structure with items of a type at its leaves. -/
inductive Nested (α : Type u) where
  | item (value : α)
  | list (parts : List (Nested α))
  | tuple (parts : List (Nested α))
  | dict (entries : List (String × Nested α))

namespace Nested

variable {α : Type u} {β : Type v}

mutual

def flatten : Nested α → List α
  | .item value => [value]
  | .list parts => flattenParts parts
  | .tuple parts => flattenParts parts
  | .dict entries => flattenEntries entries

def flattenParts : List (Nested α) → List α
  | [] => []
  | part :: rest => part.flatten ++ flattenParts rest

def flattenEntries : List (String × Nested α) → List α
  | [] => []
  | (_, part) :: rest => part.flatten ++ flattenEntries rest

end

mutual

/-- Every item is replaced by a structure, and the rest stays as it is. -/
def bind (nested : Nested α) (replace : α → Nested β) : Nested β :=
  match nested with
  | .item value => replace value
  | .list parts => .list (bindParts parts replace)
  | .tuple parts => .tuple (bindParts parts replace)
  | .dict entries => .dict (bindEntries entries replace)

def bindParts (parts : List (Nested α)) (replace : α → Nested β) : List (Nested β) :=
  match parts with
  | [] => []
  | part :: rest => part.bind replace :: bindParts rest replace

def bindEntries (entries : List (String × Nested α)) (replace : α → Nested β) :
    List (String × Nested β) :=
  match entries with
  | [] => []
  | (key, part) :: rest => (key, part.bind replace) :: bindEntries rest replace

end

example : (Nested.dict [("a", .item 1), ("b", .list [.item 2, .tuple []])]).flatten = [1, 2] := by
  decide

end Nested

end Trun
