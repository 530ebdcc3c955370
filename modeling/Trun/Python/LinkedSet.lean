import Trun.Program.Rings
import Trun.Python.Dict
import Trun.Python.OrderedSet

/-!
# The linked cells of `OrderedSet`

The class keeps its keys in a ring of cells `[key, prev, next]` through the sentinel `end`, and a
map from each key to its cell.  `Op.calls` says which calls of `add` and `discard` an operation
stands for, and `contents` what the ring is for: it is the set that the calls amount to, in the
order in which the keys were inserted.
-/

namespace Trun

open Program

structure KeyError where
  text : String
  deriving DecidableEq

/-- The calls by which a set changes. -/
inductive Call (κ : Type) where
  | add (key : κ)
  | discard (key : κ)

/-- A cell `[key, prev, next]`. -/
structure Cell (κ : Type) where
  key : κ
  prev : ℕ
  next : ℕ

/-- The cells by their references, the first of which is `end`. -/
structure LinkedSet (κ : Type) where
  cells : ℕ → Cell κ
  fresh : ℕ
  map : Dict κ ℕ

variable {κ : Type}

namespace LinkedSet

/-- The reference of the sentinel. -/
def sentinel : ℕ := 0

def key (self : LinkedSet κ) (ref : ℕ) : κ := (self.cells ref).key
def prev (self : LinkedSet κ) (ref : ℕ) : ℕ := (self.cells ref).prev
def next (self : LinkedSet κ) (ref : ℕ) : ℕ := (self.cells ref).next

/-- `OrderedSet()`.  The sentinel's `None` is the default key. -/
def init [Inhabited κ] : LinkedSet κ where
  cells _ := ⟨default, sentinel, sentinel⟩
  fresh := sentinel + 1
  map := ∅

/-- `ref[1] = value`. -/
def setPrev (self : LinkedSet κ) (ref value : ℕ) : LinkedSet κ :=
  { self with cells := Function.update self.cells ref { self.cells ref with prev := value } }

/-- `ref[2] = value`. -/
def setNext (self : LinkedSet κ) (ref value : ℕ) : LinkedSet κ :=
  { self with cells := Function.update self.cells ref { self.cells ref with next := value } }

/-- A new list `[key, prev, next]`, whose reference is `fresh`. -/
def alloc (self : LinkedSet κ) (cell : Cell κ) : LinkedSet κ :=
  { self with cells := Function.update self.cells self.fresh cell, fresh := self.fresh + 1 }

/-! ## The methods -/

def len (self : LinkedSet κ) : ℕ := self.map.size

def iter (fuel : ℕ) (self : LinkedSet κ) : Option (List κ) :=
  (walk self.next sentinel fuel (self.next sentinel)).map (List.map self.key)

def reversed (fuel : ℕ) (self : LinkedSet κ) : Option (List κ) :=
  (walk self.prev sentinel fuel (self.prev sentinel)).map (List.map self.key)

def peek (self : LinkedSet κ) (last : Bool) : Except KeyError κ :=
  if self.len = 0 then .error ⟨"set is empty"⟩
  else .ok (self.key (if last then self.prev sentinel else self.next sentinel))

variable [DecidableEq κ]

def contains (self : LinkedSet κ) (key : κ) : Bool := self.map.contains key

def add (self : LinkedSet κ) (key : κ) : LinkedSet κ :=
  if self.contains key then self
  else
    let curr := self.prev sentinel
    let new := self.fresh
    let linked := ((self.alloc ⟨key, curr, sentinel⟩).setNext curr new).setPrev sentinel new
    { linked with map := linked.map.set key new }

def discard (self : LinkedSet κ) (key : κ) : LinkedSet κ :=
  match self.map.get? key with
  | none => self
  | some ref =>
      let popped := { self with map := self.map.erase key }
      (popped.setNext (self.prev ref) (self.next ref)).setPrev (self.next ref) (self.prev ref)

def pop (self : LinkedSet κ) (last : Bool) : Except KeyError (κ × LinkedSet κ) := do
  let key ← self.peek last
  return (key, self.discard key)

/-- `clear()`: keys are popped until that raises. -/
def clear : ℕ → LinkedSet κ → Option (LinkedSet κ)
  | 0, _ => none
  | fuel + 1, self =>
      match self.pop true with
      | .ok (_, after) => clear fuel after
      | .error _ => some self

/-- `for value in self: self.add(value)`, from the cell on. -/
def addOwn : ℕ → LinkedSet κ → ℕ → Option (LinkedSet κ)
  | 0, _, _ => none
  | fuel + 1, self, curr =>
      if curr = sentinel then some self
      else
        let after := self.add (self.key curr)
        addOwn fuel after (after.next curr)

/-! ## Runs -/

/-- What `|=` and `-=` take: the set itself, or the values of anything else. -/
inductive Operand (κ : Type) where
  | own
  | values (keys : List κ)

inductive Op (κ : Type) where
  | add (key : κ)
  | discard (key : κ)
  | pop (last : Bool)
  | ior (operand : Operand κ)
  | isub (operand : Operand κ)

/-- One operation.  A `pop` that raises leaves the set as it was. -/
def step (fuel : ℕ) (self : LinkedSet κ) : Op κ → Option (LinkedSet κ)
  | .add key => some (self.add key)
  | .discard key => some (self.discard key)
  | .pop last =>
      match self.pop last with
      | .ok (_, after) => some after
      | .error _ => some self
  | .ior (.values keys) => some (keys.foldl add self)
  | .ior .own => self.addOwn fuel (self.next sentinel)
  | .isub (.values keys) => some (keys.foldl discard self)
  | .isub .own => self.clear fuel

/-- The operations from the empty set on. -/
def run [Inhabited κ] (fuel : ℕ) (ops : List (Op κ)) : Option (LinkedSet κ) :=
  ops.foldlM (step fuel) init

end LinkedSet

/-! ## What calls amount to -/

namespace Call

variable [DecidableEq κ]

/-- Whether the latest of the calls on the key, the latest call first, adds it. -/
def Present : List (Call κ) → κ → Prop
  | [], _ => False
  | .add added :: calls, key => key = added ∨ Present calls key
  | .discard discarded :: calls, key => key ≠ discarded ∧ Present calls key

instance decidablePresent : (calls : List (Call κ)) → (key : κ) → Decidable (Present calls key)
  | [], _ => .isFalse id
  | .add added :: calls, key =>
      haveI := decidablePresent calls key
      inferInstanceAs (Decidable (key = added ∨ Present calls key))
  | .discard discarded :: calls, key =>
      haveI := decidablePresent calls key
      inferInstanceAs (Decidable (key ≠ discarded ∧ Present calls key))

/-- The keys that were added while they were absent, the latest first. -/
def insertions : List (Call κ) → List κ
  | [] => []
  | .add added :: calls =>
      if Present calls added then insertions calls else added :: insertions calls
  | .discard _ :: calls => insertions calls

/-- The left key was inserted before the right one, each for the latest time. -/
def Before (calls : List (Call κ)) (left right : κ) : Prop :=
  (insertions calls).idxOf right < (insertions calls).idxOf left

/-- The set that the calls amount to. -/
def contents : List (Call κ) → OrderedSet κ
  | [] => ∅
  | .add added :: calls => (contents calls).add added
  | .discard discarded :: calls => (contents calls).removeAll [discarded]

end Call

/-- The calls that an operation on a set with these keys stands for, the latest first: `|=` adds
and `-=` discards one value after the other, and `pop` discards the last or the first key. -/
def LinkedSet.Op.calls (keys : List κ) : LinkedSet.Op κ → List (Call κ)
  | .add key => [.add key]
  | .discard key => [.discard key]
  | .pop last => ((if last then keys.getLast? else keys.head?).map .discard).toList
  | .ior (.values values) => (values.map .add).reverse
  | .ior .own => (keys.map .add).reverse
  | .isub (.values values) => (values.map .discard).reverse
  | .isub .own => keys.map .discard

namespace Call

variable [DecidableEq κ]

/-- The calls that the operations stand for, from the empty set on. -/
def ofOps (ops : List (LinkedSet.Op κ)) : List (Call κ) :=
  ops.foldl (fun calls op => op.calls (contents calls).elems ++ calls) []

theorem ofOps_concat (ops : List (LinkedSet.Op κ)) (op : LinkedSet.Op κ) :
    ofOps (ops ++ [op]) = op.calls (contents (ofOps ops)).elems ++ ofOps ops := by
  rw [ofOps, List.foldl_append]
  rfl

theorem contents_add_of_mem {calls : List (Call κ)} {key : κ}
    (hmem : key ∈ (contents calls).elems) : contents (.add key :: calls) = contents calls :=
  dif_pos hmem

theorem mem_contents_iff (calls : List (Call κ)) (key : κ) :
    key ∈ contents calls ↔ Present calls key := by
  induction calls with
  | nil => exact iff_of_false (OrderedSet.not_mem_empty key) id
  | cons call calls ih =>
      cases call with
      | add added => rw [contents, OrderedSet.mem_add, Present, ih]
      | discard discarded =>
          rw [contents, OrderedSet.mem_removeAll, Present, ih, List.mem_singleton, and_comm]

/-- Present keys were inserted. -/
theorem mem_insertions {calls : List (Call κ)} {key : κ} (hpresent : Present calls key) :
    key ∈ insertions calls := by
  induction calls with
  | nil => exact hpresent.elim
  | cons call calls ih =>
      cases call with
      | add added =>
          rw [insertions]
          split <;> rename_i hadded
          · exact hpresent.elim (fun heq => ih (heq ▸ hadded)) ih
          · exact hpresent.elim (fun heq => heq ▸ List.mem_cons_self)
              fun h => List.mem_cons_of_mem _ (ih h)
      | discard discarded => exact ih hpresent.2

/-- The keys come in the order of their latest insertions. -/
theorem pairwise_contents (calls : List (Call κ)) :
    (contents calls).elems.Pairwise (Before calls) := by
  induction calls with
  | nil => exact .nil
  | cons call calls ih =>
      cases call with
      | add added =>
          by_cases hpresent : Present calls added
          · have hmem : added ∈ (contents calls).elems :=
              (mem_contents_iff calls added).mpr hpresent
            have hbefore : Before (.add added :: calls) = Before calls := by
              funext left right
              rw [Before, insertions, if_pos hpresent, Before]
            rw [contents_add_of_mem hmem, hbefore]
            exact ih
          · have hmem : added ∉ (contents calls).elems := fun hmem =>
              hpresent ((mem_contents_iff calls added).mp hmem)
            have hinsertions : insertions (.add added :: calls) = added :: insertions calls :=
              if_neg hpresent
            have hne : ∀ key ∈ (contents calls).elems, key ≠ added := fun key hkey heq =>
              hmem (heq ▸ hkey)
            rw [contents, OrderedSet.add, dif_neg hmem, List.pairwise_append]
            refine ⟨ih.imp_of_mem fun hleft hright hbefore => ?_, List.pairwise_singleton _ _, ?_⟩
            · rw [Before, hinsertions, List.idxOf_cons_ne _ (hne _ hleft).symm,
                List.idxOf_cons_ne _ (hne _ hright).symm]
              exact Nat.succ_lt_succ hbefore
            · intro left hleft right hright
              rw [List.mem_singleton.mp hright, Before, hinsertions, List.idxOf_cons_self,
                List.idxOf_cons_ne _ (hne left hleft).symm]
              exact Nat.succ_pos _
      | discard discarded => exact ih.sublist List.filter_sublist

end Call

namespace LinkedSet

/-! ## The cells after each operation -/

section Cells

variable (self : LinkedSet κ) (ref value other : ℕ) (cell : Cell κ)

@[simp] theorem key_setPrev : (self.setPrev ref value).key other = self.key other := by
  by_cases h : other = ref <;> simp [key, setPrev, h]

@[simp] theorem key_setNext : (self.setNext ref value).key other = self.key other := by
  by_cases h : other = ref <;> simp [key, setNext, h]

@[simp] theorem prev_setNext : (self.setNext ref value).prev other = self.prev other := by
  by_cases h : other = ref <;> simp [prev, setNext, h]

@[simp] theorem next_setPrev : (self.setPrev ref value).next other = self.next other := by
  by_cases h : other = ref <;> simp [next, setPrev, h]

@[simp] theorem prev_setPrev :
    (self.setPrev ref value).prev other = if other = ref then value else self.prev other := by
  by_cases h : other = ref <;> simp [prev, setPrev, h]

@[simp] theorem next_setNext :
    (self.setNext ref value).next other = if other = ref then value else self.next other := by
  by_cases h : other = ref <;> simp [next, setNext, h]

@[simp] theorem key_alloc :
    (self.alloc cell).key other = if other = self.fresh then cell.key else self.key other := by
  by_cases h : other = self.fresh <;> simp [key, alloc, h]

@[simp] theorem prev_alloc :
    (self.alloc cell).prev other = if other = self.fresh then cell.prev else self.prev other := by
  by_cases h : other = self.fresh <;> simp [prev, alloc, h]

@[simp] theorem next_alloc :
    (self.alloc cell).next other = if other = self.fresh then cell.next else self.next other := by
  by_cases h : other = self.fresh <;> simp [next, alloc, h]

end Cells

variable [DecidableEq κ]

/-- The ring holds what the calls amount to, and the map leads to its cells. -/
structure Wired (set : LinkedSet κ) (refs : List ℕ) (calls : List (Call κ)) : Prop where
  ring : IsRing set.next set.prev sentinel refs
  keys : refs.map set.key = (Call.contents calls).elems
  old : ∀ ref ∈ sentinel :: refs, ref < set.fresh
  mapped : ∀ key ref, set.map.get? key = some ref ↔ ref ∈ refs ∧ set.key ref = key

namespace Wired

variable {set : LinkedSet κ} {refs : List ℕ} {calls : List (Call κ)}

theorem init [Inhabited κ] : Wired (LinkedSet.init : LinkedSet κ) [] [] where
  ring := .nil rfl rfl
  keys := rfl
  old := by simp [LinkedSet.init]
  mapped := by simp [LinkedSet.init]

theorem contains_iff (hwired : set.Wired refs calls) (key : κ) :
    set.map.contains key = true ↔ key ∈ Call.contents calls := by
  rw [Dict.contains_iff, OrderedSet.mem_def, ← hwired.keys, List.mem_map]
  exact exists_congr fun ref => hwired.mapped key ref

/-- Calls after which the contents are the same. -/
theorem called (hwired : set.Wired refs calls) {call : Call κ}
    (hsame : Call.contents (call :: calls) = Call.contents calls) :
    set.Wired refs (call :: calls) where
  ring := hwired.ring
  keys := hwired.keys.trans (congrArg OrderedSet.elems hsame.symm)
  old := hwired.old
  mapped := hwired.mapped

/-- A key that is absent is put before the sentinel. -/
theorem add_absent (hwired : set.Wired refs calls) {key : κ} (habsent : set.contains key = false) :
    (set.add key).Wired (refs ++ [set.fresh]) (.add key :: calls) := by
  have hmem : key ∉ (Call.contents calls).elems := fun hmem => by
    have hcontains := (hwired.contains_iff key).mpr hmem
    exact Bool.false_ne_true (habsent.symm.trans hcontains)
  have hfresh : set.fresh ∉ sentinel :: refs := fun hmem =>
    Nat.lt_irrefl _ (hwired.old _ hmem)
  have hsentinel : sentinel ≠ set.fresh := fun heq => hfresh (heq ▸ List.mem_cons_self)
  have hcurr : set.prev sentinel ≠ set.fresh := fun heq =>
    hfresh (heq ▸ hwired.ring.prev_sentinel_mem)
  have hadd : set.add key = { (((set.alloc ⟨key, set.prev sentinel, sentinel⟩).setNext
      (set.prev sentinel) set.fresh).setPrev sentinel set.fresh) with
        map := set.map.set key set.fresh } := by
    rw [LinkedSet.add, habsent]
    rfl
  have hnext : ∀ x, (set.add key).next x = if x = set.prev sentinel then set.fresh
      else if x = set.fresh then sentinel else set.next x := by
    intro x
    rw [hadd]
    exact (next_setPrev ..).trans ((next_setNext ..).trans (by rw [next_alloc]))
  have hprev : ∀ x, (set.add key).prev x = if x = sentinel then set.fresh
      else if x = set.fresh then set.prev sentinel else set.prev x := by
    intro x
    rw [hadd]
    exact (prev_setPrev ..).trans (by rw [prev_setNext, prev_alloc])
  have hkey : ∀ x, (set.add key).key x = if x = set.fresh then key else set.key x := by
    intro x
    rw [hadd]
    exact (key_setPrev ..).trans ((key_setNext ..).trans (key_alloc ..))
  have hold : ∀ ref ∈ refs, (set.add key).key ref = set.key ref := by
    intro ref href
    rw [hkey, if_neg]
    exact fun heq => hfresh (List.mem_cons_of_mem _ (heq ▸ href))
  have hnew : (set.add key).key set.fresh = key := by rw [hkey, if_pos rfl]
  refine ⟨hwired.ring.push hfresh ?_ ?_ ?_ ?_ ?_ ?_, ?_, ?_, ?_⟩
  · rw [hnext, if_pos rfl]
  · rw [hnext, if_neg hcurr.symm, if_pos rfl]
  · rw [hprev, if_neg hsentinel.symm, if_pos rfl]
  · rw [hprev, if_pos rfl]
  · intro x hx hx'
    rw [hnext, if_neg hx, if_neg hx']
  · intro x hx hx'
    rw [hprev, if_neg hx, if_neg hx']
  · have hcontents : (Call.contents (.add key :: calls)).elems =
        (Call.contents calls).elems ++ [key] := congrArg OrderedSet.elems (dif_neg hmem)
    rw [hcontents, ← hwired.keys, List.map_append, List.map_singleton, hnew,
      List.map_congr_left hold]
  · have hfresh' : (set.add key).fresh = set.fresh + 1 := by rw [hadd]; rfl
    intro ref href
    rw [hfresh']
    rw [← List.cons_append, List.mem_append, List.mem_singleton] at href
    exact href.elim (fun h => Nat.lt_succ_of_lt (hwired.old ref h)) fun h => h ▸ Nat.lt_succ_self _
  · intro other ref
    have hmap : (set.add key).map.get? other =
        if other = key then some set.fresh else set.map.get? other := by
      rw [hadd]
      exact Dict.get?_set ..
    rw [hmap, List.mem_append, List.mem_singleton]
    by_cases hother : other = key
    · subst hother
      rw [if_pos rfl]
      constructor
      · rintro ⟨⟩
        exact ⟨.inr rfl, hnew⟩
      · rintro ⟨hmem' | rfl, hkey'⟩
        · rw [hold ref hmem'] at hkey'
          exact absurd (hwired.keys ▸ List.mem_map.mpr ⟨ref, hmem', hkey'⟩) hmem
        · rfl
    · rw [if_neg hother, hwired.mapped]
      constructor
      · rintro ⟨href, hkey'⟩
        exact ⟨.inl href, (hold ref href).trans hkey'⟩
      · rintro ⟨href | rfl, hkey'⟩
        · exact ⟨href, (hold ref href).symm.trans hkey'⟩
        · exact absurd (hkey'.symm.trans hnew) hother

theorem add (hwired : set.Wired refs calls) (key : κ) :
    ∃ refs', (set.add key).Wired refs' (.add key :: calls) := by
  cases hcontains : set.contains key with
  | false => exact ⟨_, hwired.add_absent hcontains⟩
  | true =>
      refine ⟨refs, ?_⟩
      rw [LinkedSet.add, if_pos hcontains]
      have hmem : key ∈ (Call.contents calls).elems := (hwired.contains_iff key).mp hcontains
      exact hwired.called (Call.contents_add_of_mem hmem)

/-- Without a key that comes once. -/
private theorem filter_keys {before after : List ℕ} {ref : ℕ} {keyOf : ℕ → κ}
    (hnodup : ((before ++ ref :: after).map keyOf).Nodup) :
    (((before ++ ref :: after).map keyOf).filter fun x => x ∉ [keyOf ref]) =
      (before ++ after).map keyOf := by
  rw [List.map_append, List.map_cons, List.nodup_append, List.nodup_cons] at hnodup
  obtain ⟨-, ⟨hafter, -⟩, hbefore⟩ := hnodup
  have hkeep : ∀ refs : List ℕ, keyOf ref ∉ refs.map keyOf →
      ((refs.map keyOf).filter fun x => x ∉ [keyOf ref]) = refs.map keyOf := by
    intro refs hnew
    rw [List.filter_eq_self]
    intro x hx
    rw [decide_eq_true_eq, List.mem_singleton]
    rintro rfl
    exact hnew hx
  rw [List.map_append, List.map_cons, List.filter_append, List.filter_cons_of_neg (by simp),
    hkeep after hafter, hkeep before fun hmem => hbefore _ hmem _ List.mem_cons_self rfl,
    List.map_append]

/-- A present key's cell is taken out of the ring. -/
theorem discard_present {before after : List ℕ} {ref : ℕ}
    (hwired : set.Wired (before ++ ref :: after) calls) :
    (set.discard (set.key ref)).Wired (before ++ after) (.discard (set.key ref) :: calls) := by
  have hget : set.map.get? (set.key ref) = some ref :=
    (hwired.mapped _ ref).mpr ⟨by simp, rfl⟩
  have hdiscard : set.discard (set.key ref) = ((({ set with
      map := set.map.erase (set.key ref) } : LinkedSet κ).setNext (set.prev ref)
        (set.next ref)).setPrev (set.next ref) (set.prev ref)) := by
    rw [LinkedSet.discard, hget]
  have hnext : ∀ x, (set.discard (set.key ref)).next x =
      if x = set.prev ref then set.next ref else set.next x := by
    intro x
    rw [hdiscard]
    exact (next_setPrev ..).trans (next_setNext ..)
  have hprev : ∀ x, (set.discard (set.key ref)).prev x =
      if x = set.next ref then set.prev ref else set.prev x := by
    intro x
    rw [hdiscard]
    exact (prev_setPrev ..).trans (by rw [prev_setNext]; rfl)
  have hkey : ∀ x, (set.discard (set.key ref)).key x = set.key x := by
    intro x
    rw [hdiscard]
    exact (key_setPrev ..).trans (key_setNext ..)
  have hmem : ∀ other, other ∈ before ++ ref :: after ↔
      other = ref ∨ other ∈ before ++ after := by
    intro other
    simp only [List.mem_append, List.mem_cons]
    tauto
  have hgone : ref ∉ before ++ after := by
    have hnodup := (List.nodup_cons.mp hwired.ring.nodup).2
    exact (List.nodup_middle.mp hnodup |> List.nodup_cons.mp).1
  refine ⟨hwired.ring.unlink ?_ ?_ ?_ ?_, ?_, ?_, ?_⟩
  · rw [hnext, if_pos rfl]
  · rw [hprev, if_pos rfl]
  · intro x hx
    rw [hnext, if_neg hx]
  · intro x hx
    rw [hprev, if_neg hx]
  · have hcontents : (Call.contents (.discard (set.key ref) :: calls)).elems =
        (Call.contents calls).elems.filter fun x => x ∉ [set.key ref] := rfl
    have hnodup := (Call.contents calls).nodup
    rw [← hwired.keys] at hnodup
    rw [hcontents, ← hwired.keys, filter_keys hnodup]
    exact List.map_congr_left fun other _ => hkey other
  · have hfresh : (set.discard (set.key ref)).fresh = set.fresh := by rw [hdiscard]; rfl
    intro other hother
    rw [hfresh]
    refine hwired.old other ?_
    rw [List.mem_cons, hmem]
    exact (List.mem_cons.mp hother).imp id .inr
  · intro other at'
    have hmap : (set.discard (set.key ref)).map.get? other =
        if other = set.key ref then none else set.map.get? other := by
      rw [hdiscard]
      exact Dict.get?_erase ..
    rw [hmap, hkey]
    by_cases hother : other = set.key ref
    · rw [if_pos hother]
      refine iff_of_false (by simp) ?_
      rintro ⟨hin, hkey'⟩
      have hsame : set.map.get? (set.key ref) = some at' :=
        (hwired.mapped _ at').mpr ⟨(hmem at').mpr (.inr hin), hkey'.trans hother⟩
      rw [hget, Option.some.injEq] at hsame
      exact hgone (hsame ▸ hin)
    · rw [if_neg hother, hwired.mapped, hmem]
      constructor
      · rintro ⟨rfl | hin, hkey'⟩
        · exact absurd hkey'.symm hother
        · exact ⟨hin, hkey'⟩
      · exact fun ⟨hin, hkey'⟩ => ⟨.inr hin, hkey'⟩

theorem discard (hwired : set.Wired refs calls) (key : κ) :
    ∃ refs', (set.discard key).Wired refs' (.discard key :: calls) := by
  cases hget : set.map.get? key with
  | none =>
      refine ⟨refs, ?_⟩
      rw [LinkedSet.discard, hget]
      have hmem : key ∉ (Call.contents calls).elems := fun hmem => by
        obtain ⟨ref, href⟩ := (Dict.contains_iff ..).mp ((hwired.contains_iff key).mpr hmem)
        rw [hget] at href
        cases href
      apply hwired.called
      rw [Call.contents, OrderedSet.removeAll]
      congr 1
      rw [List.filter_eq_self]
      rintro x hx
      rw [decide_eq_true_eq, List.mem_singleton]
      rintro rfl
      exact hmem hx
  | some ref =>
      obtain ⟨href, rfl⟩ := (hwired.mapped key ref).mp hget
      obtain ⟨before, after, rfl⟩ := List.append_of_mem href
      exact ⟨_, hwired.discard_present⟩

/-! ## What the methods return -/

theorem iter (hwired : set.Wired refs calls) :
    Yields (fun fuel => set.iter fuel) (Call.contents calls).elems := by
  obtain ⟨bound, hbound⟩ := hwired.ring.walk
  refine ⟨bound, fun fuel hfuel => ?_⟩
  exact (congrArg _ (hbound fuel hfuel)).trans (congrArg some hwired.keys)

theorem reversed (hwired : set.Wired refs calls) :
    Yields (fun fuel => set.reversed fuel) (Call.contents calls).elems.reverse := by
  obtain ⟨bound, hbound⟩ := hwired.ring.reverse.walk
  refine ⟨bound, fun fuel hfuel => ?_⟩
  have hkeys : refs.reverse.map set.key = (Call.contents calls).elems.reverse := by
    rw [List.map_reverse, hwired.keys]
  exact (congrArg _ (hbound fuel hfuel)).trans (congrArg some hkeys)

theorem len (hwired : set.Wired refs calls) : set.len = (Call.contents calls).elems.length := by
  have hnodup : set.map.keys.Nodup := set.map.nodup_keys
  have hperm : set.map.keys.Perm (Call.contents calls).elems := by
    rw [List.perm_ext_iff_of_nodup hnodup (Call.contents calls).nodup]
    intro key
    rw [Dict.mem_keys_iff_contains, hwired.contains_iff]
    rfl
  rw [← hperm.length_eq]
  exact (List.length_map ..).symm

/-- The end of the contents that is asked for. -/
theorem peek (hwired : set.Wired refs calls) (last : Bool) :
    set.peek last =
      match (if last then (Call.contents calls).elems.getLast?
        else (Call.contents calls).elems.head?) with
      | some key => .ok key
      | none => .error ⟨"set is empty"⟩ := by
  rw [LinkedSet.peek, hwired.len, ← hwired.keys, List.length_map]
  have hring := hwired.ring
  cases last with
  | true =>
      obtain rfl | ⟨front, ref, rfl⟩ := List.eq_nil_or_concat' refs
      · rfl
      · rw [if_neg (by simp), if_pos rfl, if_pos rfl, hring.prev_sentinel]
        simp
  | false =>
      cases refs with
      | nil => rfl
      | cons ref rest =>
          rw [if_neg (by simp), if_neg Bool.false_ne_true, if_neg Bool.false_ne_true,
            hring.next_sentinel]
          rfl

theorem pop (hwired : set.Wired refs calls) {last : Bool} {key : κ}
    (hpeek : set.peek last = .ok key) :
    key ∈ (Call.contents calls).elems ∧ set.pop last = .ok (key, set.discard key) := by
  refine ⟨?_, by rw [LinkedSet.pop, hpeek]; rfl⟩
  rw [hwired.peek] at hpeek
  split at hpeek <;> rename_i hsome
  · cases hpeek
    cases last with
    | true => exact List.mem_of_getLast? hsome
    | false => exact List.mem_of_head? hsome
  · cases hpeek

/-- Popping the keys discards them from the last to the first. -/
theorem clear (hwired : set.Wired refs calls) :
    ∃ after refs', Yields (fun fuel => set.clear fuel) after ∧
      after.Wired refs' ((Call.contents calls).elems.map .discard ++ calls) := by
  induction hkeys : (Call.contents calls).elems using List.reverseRecOn
    generalizing set refs calls with
  | nil =>
      have hpeek := hwired.peek true
      rw [hkeys] at hpeek
      have hpop : set.pop true = .error ⟨"set is empty"⟩ := by
        rw [LinkedSet.pop, hpeek]
        rfl
      refine ⟨set, refs, .succ (fun fuel => ?_) (.of_eq fun _ => rfl), hwired⟩
      rw [LinkedSet.clear, hpop]
  | append_singleton front key ih =>
      have hpeek : set.peek true = .ok key := by
        rw [hwired.peek, hkeys]
        simp
      obtain ⟨-, hpop⟩ := hwired.pop hpeek
      obtain ⟨refs', hwired'⟩ := hwired.discard key
      have hnodup := (Call.contents calls).nodup
      rw [hkeys, List.nodup_append] at hnodup
      have hfront : (Call.contents (.discard key :: calls)).elems = front := by
        rw [Call.contents, OrderedSet.removeAll]
        dsimp only
        rw [hkeys, List.filter_append, List.filter_eq_self.mpr, List.filter_cons_of_neg (by simp),
          List.filter_nil, List.append_nil]
        intro other hother
        simpa using hnodup.2.2 other hother key List.mem_cons_self
      obtain ⟨after, last, hyields, hlast⟩ := ih hwired' hfront
      refine ⟨after, last, .succ (fun fuel => ?_) hyields, ?_⟩
      · rw [LinkedSet.clear, hpop]
      · rw [List.map_append, List.append_assoc]
        exact hlast

/-- Adding present keys changes nothing. -/
theorem addOwn {cells : List ℕ} {start : ℕ} (hwired : set.Wired refs calls)
    (hcells : ∀ ref ∈ cells, ref ∈ refs)
    (hlinked : (start :: cells ++ [sentinel]).IsChain (Linked set.next set.prev)) :
    Yields (fun fuel => set.addOwn fuel (set.next start)) set ∧
      set.Wired refs ((cells.map set.key |>.map .add).reverse ++ calls) := by
  induction cells generalizing start calls with
  | nil =>
      have hstart : set.next start = sentinel := (List.isChain_pair.mp hlinked).1
      refine ⟨.succ (fun _ => ?_) (.of_eq fun _ => rfl), hwired⟩
      rw [LinkedSet.addOwn, if_pos hstart]
  | cons cell rest ih =>
      rw [List.cons_append, List.cons_append, List.isChain_cons_cons] at hlinked
      have hcell : cell ∈ refs := hcells cell List.mem_cons_self
      have hne : cell ≠ sentinel := fun heq =>
        (List.nodup_cons.mp hwired.ring.nodup).1 (heq ▸ hcell)
      have hcontains : set.contains (set.key cell) = true :=
        (Dict.contains_iff ..).mpr ⟨cell, (hwired.mapped _ cell).mpr ⟨hcell, rfl⟩⟩
      have hmem : set.key cell ∈ (Call.contents calls).elems :=
        (hwired.contains_iff _).mp hcontains
      have hadd : set.add (set.key cell) = set := by rw [LinkedSet.add, if_pos hcontains]
      obtain ⟨hyields, hafter⟩ := ih (hwired.called (Call.contents_add_of_mem hmem))
        (fun ref href => hcells ref (List.mem_cons_of_mem _ href)) hlinked.2
      refine ⟨.succ (fun fuel => ?_) hyields, ?_⟩
      · rw [hlinked.1.1, LinkedSet.addOwn, if_neg hne, hadd]
      · rw [List.map_cons, List.map_cons, List.reverse_cons, List.append_assoc]
        exact hafter

/-- Each value in turn. -/
theorem foldl {act : LinkedSet κ → κ → LinkedSet κ} {call : κ → Call κ}
    (hact : ∀ {set : LinkedSet κ} {refs calls}, set.Wired refs calls → ∀ key,
      ∃ refs', (act set key).Wired refs' (call key :: calls))
    (hwired : set.Wired refs calls) (keys : List κ) :
    ∃ refs', (keys.foldl act set).Wired refs' ((keys.map call).reverse ++ calls) := by
  induction keys generalizing set refs calls with
  | nil => exact ⟨refs, hwired⟩
  | cons key rest ih =>
      obtain ⟨_, hnext⟩ := hact hwired key
      rw [List.map_cons, List.reverse_cons, List.append_assoc]
      exact ih hnext

theorem step (hwired : set.Wired refs calls) (op : Op κ) :
    ∃ after refs', Yields (fun fuel => set.step fuel op) after ∧
      after.Wired refs' (op.calls (Call.contents calls).elems ++ calls) := by
  cases op with
  | add key =>
      obtain ⟨refs', h⟩ := hwired.add key
      exact ⟨_, refs', .of_eq fun _ => rfl, h⟩
  | discard key =>
      obtain ⟨refs', h⟩ := hwired.discard key
      exact ⟨_, refs', .of_eq fun _ => rfl, h⟩
  | pop last =>
      have hpeek := hwired.peek last
      have hcalls : (Op.pop last).calls (Call.contents calls).elems =
          ((if last then (Call.contents calls).elems.getLast?
            else (Call.contents calls).elems.head?).map Call.discard).toList := rfl
      split at hpeek <;> rename_i hend
      · obtain ⟨refs', h⟩ := hwired.discard _
        refine ⟨_, refs', .of_eq fun _ => by rw [LinkedSet.step, (hwired.pop hpeek).2], ?_⟩
        rw [hcalls, hend]
        exact h
      · have hpop : set.pop last = .error ⟨"set is empty"⟩ := by
          rw [LinkedSet.pop, hpeek]
          rfl
        refine ⟨set, refs, .of_eq fun _ => by rw [LinkedSet.step, hpop], ?_⟩
        rw [hcalls, hend]
        exact hwired
  | ior operand =>
      cases operand with
      | own =>
          obtain ⟨hyields, hafter⟩ := hwired.addOwn (fun _ h => h) hwired.ring.linked
          rw [hwired.keys] at hafter
          exact ⟨set, refs, hyields, hafter⟩
      | values keys =>
          obtain ⟨refs', h⟩ := hwired.foldl Wired.add keys
          exact ⟨_, refs', .of_eq fun _ => rfl, h⟩
  | isub operand =>
      cases operand with
      | own => exact hwired.clear
      | values keys =>
          obtain ⟨refs', h⟩ := hwired.foldl Wired.discard keys
          exact ⟨_, refs', .of_eq fun _ => rfl, h⟩

/-- Every run ends, in a set that is wired. -/
theorem run [Inhabited κ] (ops : List (Op κ)) :
    ∃ (last : LinkedSet κ) (refs : List ℕ), Yields (fun fuel => LinkedSet.run fuel ops) last ∧
      last.Wired refs (Call.ofOps ops) := by
  have hrun : ∃ last : LinkedSet κ, Yields (fun fuel => LinkedSet.run fuel ops) last ∧
      ∃ refs, last.Wired refs (Call.ofOps ops) := by
    refine @Yields.foldlM _ _ LinkedSet.init
      (fun done set => ∃ refs, set.Wired refs (Call.ofOps done)) LinkedSet.step ops ?_ ⟨[], init⟩
    rintro done op _ set _ ⟨_, hwired⟩
    obtain ⟨after, refs, hyields, hafter⟩ := hwired.step op
    exact ⟨after, hyields, refs, Call.ofOps_concat done op ▸ hafter⟩
  obtain ⟨last, hyields, refs, hwired⟩ := hrun
  exact ⟨last, refs, hyields, hwired⟩

end Wired

/-! ## The insertion-ordered set -/

/-- The set holds the keys, in this order, after the calls. -/
structure Holds (set : LinkedSet κ) (calls : List (Call κ)) (keys : List κ) : Prop where
  nodup : keys.Nodup
  present : ∀ key, key ∈ keys ↔ Call.Present calls key
  inserted : ∀ key ∈ keys, key ∈ Call.insertions calls
  ordered : keys.Pairwise (Call.Before calls)
  forward : Yields (fun fuel => set.iter fuel) keys
  backward : Yields (fun fuel => set.reversed fuel) keys.reverse
  mapped : ∀ key, set.contains key = true ↔ key ∈ keys
  len : set.len = keys.length
  peek : ∀ last, set.peek last =
    match (if last then keys.getLast? else keys.head?) with
    | some key => .ok key
    | none => .error ⟨"set is empty"⟩

theorem Wired.holds {set : LinkedSet κ} {refs : List ℕ} {calls : List (Call κ)}
    (hwired : set.Wired refs calls) : set.Holds calls (Call.contents calls).elems where
  nodup := (Call.contents calls).nodup
  present := Call.mem_contents_iff calls
  inserted key hkey := Call.mem_insertions ((Call.mem_contents_iff calls key).mp hkey)
  ordered := Call.pairwise_contents calls
  forward := hwired.iter
  backward := hwired.reversed
  mapped := hwired.contains_iff
  len := hwired.len
  peek := hwired.peek

/-- After any operations the links, the map and `len` agree on the keys that the operations leave,
which come in the order of their latest insertions, and a `pop` takes exactly the peeked key. -/
theorem run_holds [Inhabited κ] (ops : List (Op κ)) :
    ∃ (last : LinkedSet κ) (keys : List κ), Yields (fun fuel => run fuel ops) last ∧
      last.Holds (Call.ofOps ops) keys ∧ ∀ front,
        match last.peek front with
        | .error error => last.pop front = .error error
        | .ok key => ∃ after, last.pop front = .ok (key, after) ∧
            after.Holds (.discard key :: Call.ofOps ops) (keys.filter fun x => x ≠ key) := by
  obtain ⟨last, refs, hyields, hwired⟩ := Wired.run ops
  refine ⟨last, _, hyields, hwired.holds, fun front => ?_⟩
  split <;> rename_i hpeek
  · rw [pop, hpeek]
    rfl
  · obtain ⟨refs', hwired'⟩ := hwired.discard _
    have hholds := hwired'.holds
    exact ⟨_, (hwired.pop hpeek).2, by simpa [Call.contents, OrderedSet.removeAll] using hholds⟩

-- a key that is added again after it was discarded comes last
example : ((run 9 [.add 3, .add 5, .discard 3, .add 5, .add 3]).bind (iter 9)) = some [5, 3] :=
  rfl

end LinkedSet

end Trun
