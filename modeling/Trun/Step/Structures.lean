import Mathlib.Data.List.Basic
import Mathlib.Data.List.Forall2

/-!
# Structures of steps and outputs

`getpaths` replaces the steps of a nested structure by their outputs, and
`flatten` lists the items of one.  The two are written apart, and ask in
different orders what they have before them.
-/

namespace Trun

/-- What requirements and outputs are made of.  A dict is given by its items, whose keys differ. -/
inductive Struct (κ σ τ : Type) where
  | step (s : σ)
  | object (t : τ)
  | str (text : String)
  | none
  | list (parts : List (Struct κ σ τ))
  | tuple (parts : List (Struct κ σ τ))
  | dict (items : List (κ × Struct κ σ τ))
  /-- Any other iterable, such as a set. -/
  | iterable (parts : List (Struct κ σ τ))

/-- How `getpaths` can fail. -/
inductive PathsError (κ σ τ : Type) where
  | recursion
  | cannotMap (struct : Struct κ σ τ)

/-- `'Cannot map %s to Step/dict/list' % str(struct)`. -/
def PathsError.text {κ σ τ : Type} (str : Struct κ σ τ → String) : PathsError κ σ τ → String
  | .recursion => "maximum recursion depth exceeded"
  | .cannotMap struct => "Cannot map " ++ str struct ++ " to Step/dict/list"

namespace Struct

variable {κ σ τ : Type}

mutual

/-- `getpaths`.  A text is an iterable of texts, the first of which is its own first item. -/
def getpaths (output : σ → Struct κ σ τ) (struct : Struct κ σ τ) :
    Except (PathsError κ σ τ) (Struct κ σ τ) :=
  match struct with
  | .step s => pure (output s)
  | .dict items => do return .dict (← getpathsItems output items)
  | .list parts => do return .list (← getpathsParts output parts)
  | .tuple parts => do return .tuple (← getpathsParts output parts)
  | .iterable parts => do return .list (← getpathsParts output parts)
  | .str text => if text = "" then pure (.list []) else throw .recursion
  | .object t => throw (.cannotMap (.object t))
  | .none => throw (.cannotMap .none)

def getpathsParts (output : σ → Struct κ σ τ) (parts : List (Struct κ σ τ)) :
    Except (PathsError κ σ τ) (List (Struct κ σ τ)) :=
  match parts with
  | [] => pure []
  | r :: rest => do
      let paths ← getpaths output r
      return paths :: (← getpathsParts output rest)

def getpathsItems (output : σ → Struct κ σ τ) (items : List (κ × Struct κ σ τ)) :
    Except (PathsError κ σ τ) (List (κ × Struct κ σ τ)) :=
  match items with
  | [] => pure []
  | (k, v) :: rest => do
      let paths ← getpaths output v
      return (k, paths) :: (← getpathsItems output rest)

end

mutual

def flatten : Struct κ σ τ → List (Struct κ σ τ)
  | .none => []
  | .dict items => flattenItems items
  | .str text => [.str text]
  | .step s => [.step s]
  | .object t => [.object t]
  | .list parts => flattenParts parts
  | .tuple parts => flattenParts parts
  | .iterable parts => flattenParts parts

def flattenParts : List (Struct κ σ τ) → List (Struct κ σ τ)
  | [] => []
  | result :: rest => result.flatten ++ flattenParts rest

def flattenItems : List (κ × Struct κ σ τ) → List (Struct κ σ τ)
  | [] => []
  | (_, result) :: rest => result.flatten ++ flattenItems rest

end

/-- A structure of dicts, lists and tuples with steps at its leaves. -/
inductive OfSteps : Struct κ σ τ → Prop where
  | step (s : σ) : OfSteps (.step s)
  | list {parts : List (Struct κ σ τ)} (hparts : ∀ part ∈ parts, OfSteps part) :
      OfSteps (.list parts)
  | tuple {parts : List (Struct κ σ τ)} (hparts : ∀ part ∈ parts, OfSteps part) :
      OfSteps (.tuple parts)
  | dict {items : List (κ × Struct κ σ τ)} (hitems : ∀ item ∈ items, OfSteps item.2) :
      OfSteps (.dict items)

/-! ## Places in a structure -/

/-- One step into a structure. -/
inductive Place (κ : Type) where
  | index (i : ℕ)
  | key (k : κ)

/-- The class of a structure, with its length or its keys. -/
inductive Layer (κ : Type) where
  | list (length : ℕ)
  | tuple (length : ℕ)
  | dict (keys : List κ)
  | other

def layer : Struct κ σ τ → Layer κ
  | .list parts => .list parts.length
  | .tuple parts => .tuple parts.length
  | .dict items => .dict (items.map Prod.fst)
  | _ => .other

variable [DecidableEq κ]

/-- `struct[place]`. -/
def child : Struct κ σ τ → Place κ → Option (Struct κ σ τ)
  | .list parts, .index i => parts[i]?
  | .tuple parts, .index i => parts[i]?
  | .dict items, .key k => items.lookup k
  | _, _ => Option.none

/-- `struct[place][place]...`. -/
def get? (struct : Struct κ σ τ) : List (Place κ) → Option (Struct κ σ τ)
  | [] => some struct
  | place :: places => (struct.child place).bind fun part => part.get? places

end Struct

/-! ## Outputs in the places of steps -/

section Outputs

variable {κ σ τ : Type} {output : σ → Struct κ σ τ} {struct paths : Struct κ σ τ}

namespace Struct

@[simp] theorem flattenParts_append (front back : List (Struct κ σ τ)) :
    flattenParts (front ++ back) = flattenParts front ++ flattenParts back := by
  induction front with
  | nil => rfl
  | cons part rest ih => rw [List.cons_append, flattenParts, flattenParts, ih, List.append_assoc]

@[simp] theorem flattenItems_append (front back : List (κ × Struct κ σ τ)) :
    flattenItems (front ++ back) = flattenItems front ++ flattenItems back := by
  induction front with
  | nil => rfl
  | cons item rest ih => rw [List.cons_append, flattenItems, flattenItems, ih, List.append_assoc]

theorem flattenItems_eq (items : List (κ × Struct κ σ τ)) :
    flattenItems items = flattenParts (items.map Prod.snd) := by
  induction items with
  | nil => rfl
  | cons item rest ih => rw [flattenItems, ih, List.map_cons, flattenParts]

/-- What stands in the place of a part: the output of a step, and else the same class with the
same length or keys. -/
def Replaces (output : σ → Struct κ σ τ) (part new : Struct κ σ τ) : Prop :=
  match part with
  | .step s => new = output s
  | part => new.layer = part.layer

variable [DecidableEq κ]

/-- The outputs of its steps in the places of the steps, and nothing else changed. -/
structure Follows (output : σ → Struct κ σ τ) (struct paths : Struct κ σ τ) : Prop where
  items : ∃ steps : List σ, struct.flatten = steps.map .step ∧
    paths.flatten = steps.flatMap fun s => (output s).flatten
  places : ∀ place part, struct.get? place = some part →
    ∃ new, paths.get? place = some new ∧ Replaces output part new

theorem Follows.step (s : σ) : Follows output (.step s) (output s) where
  items := ⟨[s], rfl, by simp⟩
  places := by
    intro place part hpart
    cases place with
    | nil =>
        cases hpart
        exact ⟨output s, rfl, rfl⟩
    | cons place places => cases hpart

theorem exists_steps {parts paths : List (Struct κ σ τ)}
    (hparts : List.Forall₂ (Follows output) parts paths) :
    ∃ steps : List σ, flattenParts parts = steps.map .step ∧
      flattenParts paths = steps.flatMap fun s => (output s).flatten := by
  induction hparts with
  | nil => exact ⟨[], rfl, rfl⟩
  | cons hpart _ ih =>
      obtain ⟨front, hfront, hfrontPaths⟩ := hpart.items
      obtain ⟨back, hback, hbackPaths⟩ := ih
      refine ⟨front ++ back, ?_, ?_⟩
      · rw [flattenParts, hfront, hback, List.map_append]
      · rw [flattenParts, hfrontPaths, hbackPaths, List.flatMap_append]

theorem getElem?_follows {parts paths : List (Struct κ σ τ)} {part : Struct κ σ τ} {i : ℕ}
    (hparts : List.Forall₂ (Follows output) parts paths) (hpart : parts[i]? = some part) :
    ∃ new, paths[i]? = some new ∧ Follows output part new := by
  obtain ⟨hlt, rfl⟩ := List.getElem?_eq_some_iff.mp hpart
  have hpaths : i < paths.length := hparts.length_eq ▸ hlt
  exact ⟨paths[i], List.getElem?_eq_getElem hpaths, hparts.get hlt hpaths⟩

theorem lookup_follows {items paths : List (κ × Struct κ σ τ)} {part : Struct κ σ τ} {k : κ}
    (hitems : List.Forall₂ (fun item path => item.1 = path.1 ∧ Follows output item.2 path.2)
      items paths) (hpart : items.lookup k = some part) :
    ∃ new, paths.lookup k = some new ∧ Follows output part new := by
  induction hitems with
  | nil => cases hpart
  | @cons item path _ _ hitem _ ih =>
      obtain ⟨key, value⟩ := item
      obtain ⟨key', value'⟩ := path
      obtain ⟨rfl, hvalue⟩ := hitem
      rw [List.lookup_cons] at hpart ⊢
      cases hkey : k == key with
      | true =>
          rw [hkey] at hpart
          cases hpart
          exact ⟨value', rfl, hvalue⟩
      | false =>
          rw [hkey] at hpart
          exact ih hpart

/-- Structures of one class agree where their parts do. -/
theorem Follows.of_children
    (hitems : ∃ steps : List σ, struct.flatten = steps.map .step ∧
      paths.flatten = steps.flatMap fun s => (output s).flatten)
    (hlayer : Replaces output struct paths)
    (hchild : ∀ place part, struct.child place = some part →
      ∃ new, paths.child place = some new ∧ Follows output part new) :
    Follows output struct paths := by
  refine ⟨hitems, ?_⟩
  intro place part hpart
  cases place with
  | nil =>
      cases hpart
      exact ⟨paths, rfl, hlayer⟩
  | cons place places =>
      obtain ⟨inner, hinner, hrest⟩ := Option.bind_eq_some_iff.mp hpart
      obtain ⟨new, hnew, hfollows⟩ := hchild place inner hinner
      obtain ⟨last, hlast, hreplaces⟩ := hfollows.places places part hrest
      exact ⟨last, Option.bind_eq_some_iff.mpr ⟨new, hnew, hlast⟩, hreplaces⟩

theorem Follows.list {parts paths : List (Struct κ σ τ)}
    (hparts : List.Forall₂ (Follows output) parts paths) :
    Follows output (.list parts) (.list paths) := by
  apply Follows.of_children (exists_steps hparts)
  · exact congrArg Layer.list hparts.length_eq.symm
  · intro place part hpart
    cases place with
    | index i => exact getElem?_follows hparts hpart
    | key k => cases hpart

theorem Follows.tuple {parts paths : List (Struct κ σ τ)}
    (hparts : List.Forall₂ (Follows output) parts paths) :
    Follows output (.tuple parts) (.tuple paths) := by
  apply Follows.of_children (exists_steps hparts)
  · exact congrArg Layer.tuple hparts.length_eq.symm
  · intro place part hpart
    cases place with
    | index i => exact getElem?_follows hparts hpart
    | key k => cases hpart

theorem Follows.dict {items paths : List (κ × Struct κ σ τ)}
    (hitems : List.Forall₂ (fun item path => item.1 = path.1 ∧ Follows output item.2 path.2)
      items paths) :
    Follows output (.dict items) (.dict paths) := by
  have hkeys : paths.map Prod.fst = items.map Prod.fst := by
    induction hitems with
    | nil => rfl
    | cons hitem _ ih => rw [List.map_cons, List.map_cons, ih, hitem.1]
  have hparts : List.Forall₂ (Follows output) (items.map Prod.snd) (paths.map Prod.snd) := by
    rw [List.forall₂_map_left_iff, List.forall₂_map_right_iff]
    exact hitems.imp fun _ _ hitem => hitem.2
  apply Follows.of_children
  · simpa only [flatten, flattenItems_eq] using exists_steps hparts
  · exact congrArg Layer.dict hkeys
  · intro place part hpart
    cases place with
    | index i => cases hpart
    | key k => exact lookup_follows hitems hpart

theorem getpathsParts_ok {parts : List (Struct κ σ τ)}
    (hparts : ∀ part ∈ parts, ∃ paths, part.getpaths output = .ok paths ∧
      Follows output part paths) :
    ∃ paths, getpathsParts output parts = .ok paths ∧
      List.Forall₂ (Follows output) parts paths := by
  induction parts with
  | nil => exact ⟨[], rfl, .nil⟩
  | cons part rest ih =>
      obtain ⟨⟨new, hnew, hfollows⟩, hrest⟩ := List.forall_mem_cons.mp hparts
      obtain ⟨paths, hpaths, hall⟩ := ih hrest
      refine ⟨new :: paths, ?_, .cons hfollows hall⟩
      rw [getpathsParts, hnew, hpaths]
      rfl

theorem getpathsItems_ok {items : List (κ × Struct κ σ τ)}
    (hitems : ∀ item ∈ items, ∃ paths, item.2.getpaths output = .ok paths ∧
      Follows output item.2 paths) :
    ∃ paths, getpathsItems output items = .ok paths ∧
      List.Forall₂ (fun item path => item.1 = path.1 ∧ Follows output item.2 path.2)
        items paths := by
  induction items with
  | nil => exact ⟨[], rfl, .nil⟩
  | cons item rest ih =>
      obtain ⟨key, value⟩ := item
      obtain ⟨⟨new, hnew, hfollows⟩, hrest⟩ := List.forall_mem_cons.mp hitems
      obtain ⟨paths, hpaths, hall⟩ := ih hrest
      refine ⟨(key, new) :: paths, ?_, .cons ⟨rfl, hfollows⟩ hall⟩
      rw [getpathsItems, hnew, hpaths]
      rfl

theorem OfSteps.getpaths_ok (hsteps : struct.OfSteps) (output : σ → Struct κ σ τ) :
    ∃ paths, struct.getpaths output = .ok paths ∧ Follows output struct paths := by
  induction hsteps with
  | step s => exact ⟨output s, rfl, .step s⟩
  | list _ ih =>
      obtain ⟨paths, hpaths, hall⟩ := getpathsParts_ok ih
      exact ⟨.list paths, by rw [getpaths, hpaths]; rfl, .list hall⟩
  | tuple _ ih =>
      obtain ⟨paths, hpaths, hall⟩ := getpathsParts_ok ih
      exact ⟨.tuple paths, by rw [getpaths, hpaths]; rfl, .tuple hall⟩
  | dict _ ih =>
      obtain ⟨paths, hpaths, hall⟩ := getpathsItems_ok ih
      exact ⟨.dict paths, by rw [getpaths, hpaths]; rfl, .dict hall⟩

/-- The paths of a structure of steps come in the order of the steps, each in the place of its
step, and `flatten` takes concatenations to concatenations. -/
theorem getpaths_follows (output : σ → Struct κ σ τ) (hsteps : struct.OfSteps) :
    (∃ paths, struct.getpaths output = .ok paths ∧
      (∃ steps : List σ, struct.flatten = steps.map .step ∧
        paths.flatten = steps.flatMap fun s => (output s).flatten) ∧
      ∀ place part, struct.get? place = some part →
        ∃ new, paths.get? place = some new ∧ Replaces output part new) ∧
    (∀ front back : List (Struct κ σ τ),
      (Struct.list (front ++ back)).flatten =
          (Struct.list front).flatten ++ (Struct.list back).flatten ∧
        (Struct.tuple (front ++ back)).flatten =
          (Struct.tuple front).flatten ++ (Struct.tuple back).flatten) ∧
    ∀ front back : List (κ × Struct κ σ τ), (Struct.dict (front ++ back)).flatten =
      (Struct.dict front).flatten ++ (Struct.dict back).flatten := by
  refine ⟨?_, ?_, ?_⟩
  · obtain ⟨paths, hpaths, hfollows⟩ := hsteps.getpaths_ok output
    exact ⟨paths, hpaths, hfollows.items, hfollows.places⟩
  · intro front back
    exact ⟨flattenParts_append front back, flattenParts_append front back⟩
  · intro front back
    exact flattenItems_append front back

/-- Two steps in a dict, one of them in a list, with texts as outputs. -/
def loads : Struct String ℕ ℕ :=
  .dict [("a", .list [.step 1, .tuple []]), ("b", .step 2)]

theorem ofSteps_loads : loads.OfSteps := by
  apply OfSteps.dict
  simp only [List.forall_mem_cons, List.not_mem_nil, false_implies, implies_true, and_true]
  refine ⟨.list ?_, .step 2⟩
  simp only [List.forall_mem_cons, List.not_mem_nil, false_implies, implies_true, and_true]
  exact ⟨.step 1, .tuple fun _ hpart => absurd hpart List.not_mem_nil⟩

theorem getpaths_loads : loads.OfSteps ∧
    ∃ paths, loads.getpaths (fun s => .list [.object s, .object (s + 10)]) = .ok paths ∧
      ∃ steps : List ℕ, loads.flatten = steps.map .step ∧
        paths.flatten = steps.flatMap fun s =>
          flatten (κ := String) (σ := ℕ) (.list [.object s, .object (s + 10)]) := by
  obtain ⟨⟨paths, hpaths, hitems, -⟩, -⟩ :=
    getpaths_follows (fun s => .list [.object s, .object (s + 10)]) ofSteps_loads
  exact ⟨ofSteps_loads, paths, hpaths, hitems⟩

end Struct

end Outputs

end Trun
