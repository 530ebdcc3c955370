import Mathlib.Data.List.Pairwise
import Trun.Register.Params

/-!
# The cache of instances

`Register.__call__` looks its instances up by the class and the values of the parameters, which
Python compares by value.  A step is known to everyone else by the texts of its parameters.
-/

namespace Trun.Register

/-! ## Equality of values -/

namespace Value

mutual

theorem pyEq_refl : ∀ value : Value, value.pyEq value = true
  | .scalar _ => by simp [pyEq]
  | .tuple items => by simpa only [pyEq] using pyEqItems_refl items
  | .list items => by simpa only [pyEq] using pyEqItems_refl items

theorem pyEqItems_refl : ∀ items : List Value, pyEqItems items items = true
  | [] => rfl
  | item :: items => by simp only [pyEqItems, pyEq_refl item, pyEqItems_refl items, Bool.and_self]

end

mutual

theorem pyEq_symm : ∀ {value other : Value}, value.pyEq other = true → other.pyEq value = true
  | .scalar _, .scalar _, h => by
      simp only [pyEq, decide_eq_true_eq] at h ⊢
      exact h.symm
  | .tuple _, .tuple _, h => by
      simp only [pyEq] at h ⊢
      exact pyEqItems_symm h
  | .list _, .list _, h => by
      simp only [pyEq] at h ⊢
      exact pyEqItems_symm h
  | .scalar _, .tuple _, h | .scalar _, .list _, h | .tuple _, .scalar _, h
  | .tuple _, .list _, h | .list _, .scalar _, h | .list _, .tuple _, h => by simp [pyEq] at h

theorem pyEqItems_symm : ∀ {items others : List Value},
    pyEqItems items others = true → pyEqItems others items = true
  | [], [], _ => rfl
  | _ :: _, _ :: _, h => by
      simp only [pyEqItems, Bool.and_eq_true] at h ⊢
      exact ⟨pyEq_symm h.1, pyEqItems_symm h.2⟩
  | [], _ :: _, h | _ :: _, [], h => by simp [pyEqItems] at h

end

mutual

theorem pyEq_trans : ∀ {first second third : Value},
    first.pyEq second = true → second.pyEq third = true → first.pyEq third = true
  | .scalar _, .scalar _, .scalar _, h, h' => by
      simp only [pyEq, decide_eq_true_eq] at h h' ⊢
      exact h.trans h'
  | .tuple _, .tuple _, .tuple _, h, h' => by
      simp only [pyEq] at h h' ⊢
      exact pyEqItems_trans h h'
  | .list _, .list _, .list _, h, h' => by
      simp only [pyEq] at h h' ⊢
      exact pyEqItems_trans h h'
  | .scalar _, .tuple _, _, h, _ | .scalar _, .list _, _, h, _ | .tuple _, .scalar _, _, h, _
  | .tuple _, .list _, _, h, _ | .list _, .scalar _, _, h, _ | .list _, .tuple _, _, h, _ => by
      simp [pyEq] at h
  | .scalar _, .scalar _, .tuple _, _, h | .scalar _, .scalar _, .list _, _, h
  | .tuple _, .tuple _, .scalar _, _, h | .tuple _, .tuple _, .list _, _, h
  | .list _, .list _, .scalar _, _, h | .list _, .list _, .tuple _, _, h => by simp [pyEq] at h

theorem pyEqItems_trans : ∀ {firsts seconds thirds : List Value},
    pyEqItems firsts seconds = true → pyEqItems seconds thirds = true →
      pyEqItems firsts thirds = true
  | [], [], [], _, _ => rfl
  | _ :: _, _ :: _, _ :: _, h, h' => by
      simp only [pyEqItems, Bool.and_eq_true] at h h' ⊢
      exact ⟨pyEq_trans h.1 h'.1, pyEqItems_trans h.2 h'.2⟩
  | [], _ :: _, _, h, _ | _ :: _, [], _, h, _ => by simp [pyEqItems] at h
  | [], [], _ :: _, _, h | _ :: _, _ :: _, [], _, h => by simp [pyEqItems] at h

end

mutual

/-- Equal values are hashable alike: no tuple equals a list. -/
theorem hashable_of_pyEq : ∀ {value other : Value},
    value.pyEq other = true → value.hashable = other.hashable
  | .scalar _, .scalar _, _ => rfl
  | .tuple _, .tuple _, h => by
      simp only [pyEq] at h
      simpa only [hashable] using allHashable_of_pyEqItems h
  | .list _, .list _, _ => rfl
  | .scalar _, .tuple _, h | .scalar _, .list _, h | .tuple _, .scalar _, h
  | .tuple _, .list _, h | .list _, .scalar _, h | .list _, .tuple _, h => by simp [pyEq] at h

theorem allHashable_of_pyEqItems : ∀ {items others : List Value},
    pyEqItems items others = true → allHashable items = allHashable others
  | [], [], _ => rfl
  | _ :: _, _ :: _, h => by
      simp only [pyEqItems, Bool.and_eq_true] at h
      simp only [allHashable, hashable_of_pyEq h.1, allHashable_of_pyEqItems h.2]
  | [], _ :: _, h | _ :: _, [], h => by simp [pyEqItems] at h

end

end Value

/-! ## Keys -/

/-- `param_values == other` for lists of names with values. -/
def sameValues : ParamValues → ParamValues → Bool
  | [], [] => true
  | entry :: values, other :: others =>
      entry.1 = other.1 && entry.2.pyEq other.2 && sameValues values others
  | _, _ => false

def hashableValues (values : ParamValues) : Bool := values.all fun entry => entry.2.hashable

theorem sameValues_refl (values : ParamValues) : sameValues values values = true := by
  induction values with
  | nil => rfl
  | cons entry values ih => simp [sameValues, Value.pyEq_refl, ih]

theorem sameValues_symm {values others : ParamValues} (hsame : sameValues values others = true) :
    sameValues others values = true := by
  induction values generalizing others with
  | nil =>
      cases others with
      | nil => rfl
      | cons _ _ => simp [sameValues] at hsame
  | cons entry values ih =>
      cases others with
      | nil => simp [sameValues] at hsame
      | cons other others =>
          simp only [sameValues, Bool.and_eq_true, decide_eq_true_eq] at hsame ⊢
          exact ⟨⟨hsame.1.1.symm, Value.pyEq_symm hsame.1.2⟩, ih hsame.2⟩

theorem sameValues_trans {first second third : ParamValues}
    (hsame : sameValues first second = true) (hother : sameValues second third = true) :
    sameValues first third = true := by
  induction first generalizing second third with
  | nil =>
      cases second with
      | nil => exact hother
      | cons _ _ => simp [sameValues] at hsame
  | cons entry first ih =>
      cases second with
      | nil => simp [sameValues] at hsame
      | cons other second =>
          cases third with
          | nil => simp [sameValues] at hother
          | cons last third =>
              simp only [sameValues, Bool.and_eq_true, decide_eq_true_eq] at hsame hother ⊢
              exact ⟨⟨hsame.1.1.trans hother.1.1, Value.pyEq_trans hsame.1.2 hother.1.2⟩,
                ih hsame.2 hother.2⟩

theorem hashableValues_of_same {values others : ParamValues}
    (hsame : sameValues values others = true) : hashableValues values = hashableValues others := by
  induction values generalizing others with
  | nil =>
      cases others with
      | nil => rfl
      | cons _ _ => simp [sameValues] at hsame
  | cons entry values ih =>
      cases others with
      | nil => simp [sameValues] at hsame
      | cons other others =>
          simp only [sameValues, Bool.and_eq_true, decide_eq_true_eq] at hsame
          have htail : values.all (fun entry => entry.2.hashable) =
              others.all fun entry => entry.2.hashable := ih hsame.2
          simp only [hashableValues, List.all_cons, Value.hashable_of_pyEq hsame.1.2, htail]

section Cache

variable {κ : Type} [DecidableEq κ]

/-- `(cls, tuple(param_values))`. -/
abbrev CacheKey (κ : Type) := κ × ParamValues

/-- The two keys are one to the dictionary. -/
def SameKey (key other : CacheKey κ) : Prop := key.1 = other.1 ∧ sameValues key.2 other.2 = true

instance : DecidableRel (SameKey (κ := κ)) := fun key other =>
  inferInstanceAs (Decidable (key.1 = other.1 ∧ sameValues key.2 other.2 = true))

omit [DecidableEq κ] in
theorem SameKey.symm {key other : CacheKey κ} (hsame : SameKey key other) : SameKey other key :=
  ⟨hsame.1.symm, sameValues_symm hsame.2⟩

omit [DecidableEq κ] in
theorem SameKey.trans {first second third : CacheKey κ} (hsame : SameKey first second)
    (hother : SameKey second third) : SameKey first third :=
  ⟨hsame.1.trans hother.1, sameValues_trans hsame.2 hother.2⟩

/-! ## Instances -/

/-- A call of a step class. -/
structure Call (κ : Type) where
  cls : κ
  args : List Value
  kwargs : Dict String Value

/-- A step, with the identity of the object. -/
structure Instance (κ : Type) where
  object : ℕ
  cls : κ
  paramKwargs : ParamValues
  stepId : String

/-- The cache with the identity of the next object. -/
structure State (κ : Type) where
  cache : List (CacheKey κ × Instance κ)
  next : ℕ

/-- No instance was created. -/
def State.initial : State κ := ⟨[], 0⟩

variable (info : κ → StepClass) (printing : Printing)

def Call.paramValues (c : Call κ) : Except ParameterError ParamValues :=
  (info c.cls).getParamValues c.args c.kwargs

/-- `Step.__init__`. -/
def instantiate (object : ℕ) (key : CacheKey κ) : Instance κ where
  object := object
  cls := key.1
  paramKwargs := key.2
  stepId := stepIdStr printing (info key.1).stepFamily ((info key.1).toStrParams true true key.2)

/-- `Register.__call__`.  The values are those that `Step.__init__` computes once more. -/
def State.call (state : State κ) (c : Call κ) : Except ParameterError (Instance κ) × State κ :=
  match c.paramValues info with
  | .error error => (.error error, state)
  | .ok values =>
      let key := (c.cls, values)
      let fresh := instantiate info printing state.next key
      -- unhashable types in parameters
      if !hashableValues values then (.ok fresh, { state with next := state.next + 1 })
      else
        match state.cache.find? fun entry => SameKey entry.1 key with
        | some entry => (.ok entry.2, state)
        | none => (.ok fresh, ⟨state.cache ++ [(key, fresh)], state.next + 1⟩)

/-- What the calls return, one after the other. -/
def State.results (state : State κ) : List (Call κ) → List (Except ParameterError (Instance κ))
  | [] => []
  | c :: calls =>
      (state.call info printing c).1 :: ((state.call info printing c).2).results calls

/-- Every parameter as a text, and the id. -/
def Instance.shown (step : Instance κ) : List (String × String) × String :=
  ((info step.cls).serialized step.paramKwargs, step.stepId)

/-- The cache cannot be told from creating every step anew: a call returns what it returns in a
program without other instances, and the steps of a class are one object exactly where their
parameters serialize equally. -/
structure Transparent (calls : List (Call κ)) : Prop where
  alone : (State.initial.results info printing calls).map (Except.map (Instance.shown info)) =
    calls.map fun c => (State.initial.call info printing c).1.map (Instance.shown info)
  identity : ((State.initial.results info printing calls).filterMap Except.toOption).Pairwise
    fun step other => step.cls = other.cls →
      (step.object = other.object ↔
        (info step.cls).serialized step.paramKwargs = (info other.cls).serialized other.paramKwargs)

/-- Python finds the values of the two keys equal, and can look them up, exactly where they
serialize equally. -/
def Agree (key other : CacheKey κ) : Prop :=
  key.1 = other.1 →
    (hashableValues other.2 = true ∧ sameValues key.2 other.2 = true ↔
      (info key.1).serialized key.2 = (info other.1).serialized other.2)

def Call.key? (c : Call κ) : Option (CacheKey κ) :=
  (c.paramValues info).toOption.map fun values => (c.cls, values)

def KeysAgree (calls : List (Call κ)) : Prop :=
  (calls.filterMap (Call.key? info)).Pairwise (Agree info)

/-! ## What the cache knows -/

/-- The keys of the calls with the steps they return. -/
def State.traced (state : State κ) : List (Call κ) → List (CacheKey κ × Instance κ)
  | [] => []
  | c :: calls =>
      let rest := ((state.call info printing c).2).traced calls
      match c.key? info, (state.call info printing c).1 with
      | some key, .ok step => (key, step) :: rest
      | _, _ => rest

/-- The two steps are one object exactly where the later was found under the key of the first. -/
def Linked (entry later : CacheKey κ × Instance κ) : Prop :=
  entry.2.object = later.2.object ↔
    SameKey entry.1 later.1 ∧ hashableValues later.1.2 = true

/-- The step was created by the call with this key. -/
def Created (entry : CacheKey κ × Instance κ) : Prop :=
  entry.2 = instantiate info printing entry.2.object entry.1

structure Known (state : State κ) (past : List (CacheKey κ × Instance κ)) : Prop where
  below : ∀ entry ∈ past, entry.2.object < state.next
  cached : ∀ entry ∈ state.cache, entry ∈ past ∧ Created info printing entry
  kept : ∀ entry ∈ past, hashableValues entry.1.2 = true →
    ∃ found ∈ state.cache, found.2 = entry.2 ∧ SameKey found.1 entry.1
  outside : ∀ entry ∈ past, hashableValues entry.1.2 = false →
    ∀ found ∈ state.cache, found.2.object ≠ entry.2.object
  objects : ∀ found ∈ state.cache, ∀ other ∈ state.cache,
    found.2.object = other.2.object → found = other
  keys : ∀ found ∈ state.cache, ∀ other ∈ state.cache, SameKey found.1 other.1 → found = other
  origin : ∀ entry ∈ past, ∃ first ∈ past, first.2 = entry.2 ∧ Created info printing first

variable {info printing}

omit [DecidableEq κ] in
theorem known_initial (info : κ → StepClass) (printing : Printing) :
    Known info printing (State.initial : State κ) [] := by
  constructor <;> simp [State.initial]

/-- The three ways through `Register.__call__`. -/
theorem call_cases (printing : Printing) (state : State κ) {c : Call κ} {key : CacheKey κ}
    (hkey : c.key? info = some key) :
    (hashableValues key.2 = false ∧ state.call info printing c =
        (.ok (instantiate info printing state.next key), { state with next := state.next + 1 })) ∨
    (hashableValues key.2 = true ∧ ∃ found ∈ state.cache, SameKey found.1 key ∧
        state.call info printing c = (.ok found.2, state)) ∨
    (hashableValues key.2 = true ∧ (∀ found ∈ state.cache, ¬SameKey found.1 key) ∧
      state.call info printing c = (.ok (instantiate info printing state.next key),
        ⟨state.cache ++ [(key, instantiate info printing state.next key)], state.next + 1⟩)) := by
  unfold Call.key? at hkey
  unfold State.call
  cases hvalues : c.paramValues info with
  | error error => simp [hvalues, Except.toOption] at hkey
  | ok values =>
      simp only [hvalues, Except.toOption, Option.map_some, Option.some.injEq] at hkey
      subst hkey
      cases hhash : hashableValues values with
      | false => exact .inl ⟨rfl, by simp [hhash]⟩
      | true =>
          refine .inr ?_
          cases hfind : state.cache.find? fun entry => SameKey entry.1 (c.cls, values) with
          | some found =>
              have hsame := List.find?_some hfind
              exact .inl ⟨rfl, found, List.mem_of_find?_eq_some hfind,
                of_decide_eq_true hsame, by simp [hhash, hfind]⟩
          | none =>
              have hnone := List.find?_eq_none.mp hfind
              exact .inr ⟨rfl, fun found hmem => by simpa using hnone found hmem, by
                simp [hhash, hfind]⟩

theorem call_of_key (printing : Printing) (state : State κ) {c : Call κ} {key : CacheKey κ}
    (hkey : c.key? info = some key) : ∃ step, (state.call info printing c).1 = .ok step := by
  rcases call_cases printing state hkey with
    ⟨-, hcall⟩ | ⟨-, found, -, -, hcall⟩ | ⟨-, -, hcall⟩
  all_goals
    rw [hcall]
    exact ⟨_, rfl⟩

theorem call_of_key?_eq_none (printing : Printing) (state : State κ) {c : Call κ}
    (hkey : c.key? info = none) :
    ∃ error, state.call info printing c = (.error error, state) ∧
      c.paramValues info = .error error := by
  unfold Call.key? at hkey
  unfold State.call
  cases hvalues : c.paramValues info with
  | error error => exact ⟨error, rfl, rfl⟩
  | ok values => simp [hvalues, Except.toOption] at hkey

private theorem forall_mem_snoc {α : Type} {items : List α} {last : α} {holds : α → Prop} :
    (∀ item ∈ items ++ [last], holds item) ↔ (∀ item ∈ items, holds item) ∧ holds last := by
  rw [List.forall_mem_append, List.forall_mem_singleton]

section Step

variable {state : State κ} {past : List (CacheKey κ × Instance κ)} {key : CacheKey κ}

omit [DecidableEq κ] in
theorem Known.objects_below (hknown : Known info printing state past) :
    ∀ entry ∈ state.cache, entry.2.object < state.next := fun entry hmem =>
  hknown.below entry (hknown.cached entry hmem).1

omit [DecidableEq κ] in
/-- A step outside of the cache. -/
theorem Known.bypass (hknown : Known info printing state past)
    (hhash : hashableValues key.2 = false) :
    Known info printing { state with next := state.next + 1 }
      (past ++ [(key, instantiate info printing state.next key)]) where
  below := forall_mem_snoc.mpr ⟨fun entry hmem => (hknown.below entry hmem).trans
    (Nat.lt_succ_self _), Nat.lt_succ_self _⟩
  cached := fun entry hmem => ⟨List.mem_append_left _ (hknown.cached entry hmem).1,
    (hknown.cached entry hmem).2⟩
  kept := forall_mem_snoc.mpr ⟨hknown.kept, fun h => by simp [hhash] at h⟩
  outside := forall_mem_snoc.mpr ⟨hknown.outside, fun _ found hfound =>
    (hknown.objects_below found hfound).ne⟩
  objects := hknown.objects
  keys := hknown.keys
  origin := by
    refine forall_mem_snoc.mpr ⟨fun entry hmem => ?_, ?_⟩
    · obtain ⟨first, hfirst, horigin⟩ := hknown.origin entry hmem
      exact ⟨first, List.mem_append_left _ hfirst, horigin⟩
    · exact ⟨_, List.mem_append_right _ (List.mem_singleton_self _), rfl, rfl⟩

omit [DecidableEq κ] in
/-- A step from the cache. -/
theorem Known.again {found : CacheKey κ × Instance κ} (hknown : Known info printing state past)
    (hhash : hashableValues key.2 = true) (hfound : found ∈ state.cache)
    (hsame : SameKey found.1 key) :
    Known info printing state (past ++ [(key, found.2)]) where
  below := forall_mem_snoc.mpr ⟨hknown.below, hknown.objects_below found hfound⟩
  cached := fun entry hmem => ⟨List.mem_append_left _ (hknown.cached entry hmem).1,
    (hknown.cached entry hmem).2⟩
  kept := forall_mem_snoc.mpr ⟨hknown.kept, fun _ => ⟨found, hfound, rfl, hsame⟩⟩
  outside := forall_mem_snoc.mpr ⟨hknown.outside, fun h => by simp [hhash] at h⟩
  objects := hknown.objects
  keys := hknown.keys
  origin := by
    refine forall_mem_snoc.mpr ⟨fun entry hmem => ?_, ?_⟩
    · obtain ⟨first, hfirst, horigin⟩ := hknown.origin entry hmem
      exact ⟨first, List.mem_append_left _ hfirst, horigin⟩
    · obtain ⟨hpast, hcreated⟩ := hknown.cached found hfound
      exact ⟨found, List.mem_append_left _ hpast, rfl, hcreated⟩

omit [DecidableEq κ] in
/-- A new step in the cache. -/
theorem Known.stored (hknown : Known info printing state past)
    (hhash : hashableValues key.2 = true)
    (hnone : ∀ found ∈ state.cache, ¬SameKey found.1 key) :
    Known info printing
      ⟨state.cache ++ [(key, instantiate info printing state.next key)], state.next + 1⟩
      (past ++ [(key, instantiate info printing state.next key)]) where
  below := forall_mem_snoc.mpr ⟨fun entry hmem => (hknown.below entry hmem).trans
    (Nat.lt_succ_self _), Nat.lt_succ_self _⟩
  cached := forall_mem_snoc.mpr ⟨fun entry hmem =>
    ⟨List.mem_append_left _ (hknown.cached entry hmem).1, (hknown.cached entry hmem).2⟩,
    List.mem_append_right _ (List.mem_singleton_self _), rfl⟩
  kept := by
    refine forall_mem_snoc.mpr ⟨fun entry hmem hentry => ?_, fun _ => ?_⟩
    · obtain ⟨found, hfound, hrest⟩ := hknown.kept entry hmem hentry
      exact ⟨found, List.mem_append_left _ hfound, hrest⟩
    · exact ⟨_, List.mem_append_right _ (List.mem_singleton_self _), rfl, rfl, sameValues_refl _⟩
  outside := by
    refine forall_mem_snoc.mpr ⟨fun entry hmem hentry => ?_, fun h => by simp [hhash] at h⟩
    exact forall_mem_snoc.mpr ⟨hknown.outside entry hmem hentry, (hknown.below entry hmem).ne'⟩
  objects := by
    refine forall_mem_snoc.mpr ⟨fun found hfound => forall_mem_snoc.mpr
      ⟨hknown.objects found hfound, fun h => ?_⟩, forall_mem_snoc.mpr ⟨fun other hother h => ?_,
      fun _ => rfl⟩⟩
    · exact absurd h (hknown.objects_below found hfound).ne
    · exact absurd h (hknown.objects_below other hother).ne'
  keys := by
    refine forall_mem_snoc.mpr ⟨fun found hfound => forall_mem_snoc.mpr
      ⟨hknown.keys found hfound, fun h => ?_⟩, forall_mem_snoc.mpr ⟨fun other hother h => ?_,
      fun _ => rfl⟩⟩
    · exact absurd h (hnone found hfound)
    · exact absurd h.symm (hnone other hother)
  origin := by
    refine forall_mem_snoc.mpr ⟨fun entry hmem => ?_, ?_⟩
    · obtain ⟨first, hfirst, horigin⟩ := hknown.origin entry hmem
      exact ⟨first, List.mem_append_left _ hfirst, horigin⟩
    · exact ⟨_, List.mem_append_right _ (List.mem_singleton_self _), rfl, rfl⟩

omit [DecidableEq κ] in
theorem Known.linked_of_new {object : ℕ} {values : CacheKey κ}
    (hknown : Known info printing state past) (hobject : state.next ≤ object)
    (hnone : hashableValues values.2 = true → ∀ found ∈ state.cache, ¬SameKey found.1 values)
    {entry : CacheKey κ × Instance κ} (hmem : entry ∈ past) :
    Linked entry (values, instantiate info printing object values) := by
  refine iff_of_false ((hknown.below entry hmem).trans_le hobject).ne ?_
  rintro ⟨hsame, hhash⟩
  have hentry : hashableValues entry.1.2 = true :=
    (hashableValues_of_same hsame.2).trans hhash
  obtain ⟨found, hfound, -, hkey⟩ := hknown.kept entry hmem hentry
  exact hnone hhash found hfound (hkey.trans hsame)

omit [DecidableEq κ] in
theorem Known.linked_of_found {found : CacheKey κ × Instance κ}
    (hknown : Known info printing state past) (hhash : hashableValues key.2 = true)
    (hfound : found ∈ state.cache) (hsame : SameKey found.1 key)
    {entry : CacheKey κ × Instance κ} (hmem : entry ∈ past) : Linked entry (key, found.2) := by
  cases hentry : hashableValues entry.1.2 with
  | false =>
      refine iff_of_false (hknown.outside entry hmem hentry found hfound).symm fun h => ?_
      have := hashableValues_of_same h.1.2
      simp [hentry, hhash] at this
  | true =>
      obtain ⟨other, hother, hstep, hkey⟩ := hknown.kept entry hmem hentry
      constructor
      · intro hobject
        rw [← hstep] at hobject
        have heq := hknown.objects other hother found hfound hobject
        subst heq
        exact ⟨hkey.symm.trans hsame, hhash⟩
      · intro h
        have heq := hknown.keys other hother found hfound
          (hkey.trans (h.1.trans hsame.symm))
        rw [← hstep, heq]

/-- One call is linked to all earlier ones. -/
theorem Known.call {c : Call κ} (hknown : Known info printing state past)
    (hkey : c.key? info = some key) :
    ∃ step, (state.call info printing c).1 = .ok step ∧
      Known info printing (state.call info printing c).2 (past ++ [(key, step)]) ∧
      ∀ entry ∈ past, Linked entry (key, step) := by
  rcases call_cases printing state hkey with
    ⟨hhash, hcall⟩ | ⟨hhash, found, hfound, hsame, hcall⟩ | ⟨hhash, hnone, hcall⟩
  · rw [hcall]
    exact ⟨_, rfl, hknown.bypass hhash, fun entry hmem =>
      hknown.linked_of_new le_rfl (fun h => by simp [hhash] at h) hmem⟩
  · rw [hcall]
    exact ⟨_, rfl, hknown.again hhash hfound hsame, fun entry hmem =>
      hknown.linked_of_found hhash hfound hsame hmem⟩
  · rw [hcall]
    exact ⟨_, rfl, hknown.stored hhash hnone, fun entry hmem =>
      hknown.linked_of_new le_rfl (fun _ => hnone) hmem⟩

end Step

/-! ## Runs -/

theorem traced_of_key {state : State κ} {c : Call κ} {key : CacheKey κ} {step : Instance κ}
    (hkey : c.key? info = some key) (hstep : (state.call info printing c).1 = .ok step)
    (calls : List (Call κ)) :
    state.traced info printing (c :: calls) =
      (key, step) :: ((state.call info printing c).2).traced info printing calls := by
  rw [State.traced, hkey, hstep]

theorem traced_of_none {state : State κ} {c : Call κ} (hkey : c.key? info = none)
    (calls : List (Call κ)) :
    state.traced info printing (c :: calls) = state.traced info printing calls := by
  obtain ⟨error, hcall, -⟩ := call_of_key?_eq_none printing state hkey
  rw [State.traced, hkey, hcall]

theorem Known.run {state : State κ} {past : List (CacheKey κ × Instance κ)}
    (hknown : Known info printing state past) (hlinked : past.Pairwise Linked)
    (calls : List (Call κ)) :
    ∃ after, Known info printing after (past ++ state.traced info printing calls) ∧
      (past ++ state.traced info printing calls).Pairwise Linked := by
  induction calls generalizing state past with
  | nil => exact ⟨state, by simpa [State.traced] using hknown, by simpa [State.traced]⟩
  | cons c calls ih =>
      cases hkey : c.key? info with
      | none =>
          rw [traced_of_none hkey]
          exact ih hknown hlinked
      | some key =>
          obtain ⟨step, hstep, hafter, hlinks⟩ := hknown.call hkey
          rw [traced_of_key hkey hstep]
          have hpast : (past ++ [(key, step)]).Pairwise Linked :=
            List.pairwise_append.mpr ⟨hlinked, List.pairwise_singleton _ _,
              fun entry hmem last hlast => List.mem_singleton.mp hlast ▸ hlinks entry hmem⟩
          simpa only [List.append_assoc, List.singleton_append] using ih hafter hpast

theorem traced_keys (printing : Printing) (state : State κ) (calls : List (Call κ)) :
    (state.traced info printing calls).map Prod.fst = calls.filterMap (Call.key? info) := by
  induction calls generalizing state with
  | nil => rfl
  | cons c calls ih =>
      cases hkey : c.key? info with
      | none => rw [traced_of_none hkey, ih, List.filterMap_cons_none hkey]
      | some key =>
          obtain ⟨step, hstep⟩ := call_of_key printing state hkey
          rw [traced_of_key hkey hstep, List.map_cons, ih, List.filterMap_cons_some hkey]

theorem traced_steps (state : State κ) (calls : List (Call κ)) :
    (state.traced info printing calls).map Prod.snd =
      (state.results info printing calls).filterMap Except.toOption := by
  induction calls generalizing state with
  | nil => rfl
  | cons c calls ih =>
      rw [State.results]
      cases hkey : c.key? info with
      | none =>
          obtain ⟨error, hcall, -⟩ :=
            call_of_key?_eq_none printing state hkey
          rw [traced_of_none hkey, ih, hcall]
          rfl
      | some key =>
          obtain ⟨step, hstep⟩ := call_of_key printing state hkey
          rw [traced_of_key hkey hstep, List.map_cons, ih, hstep]
          rfl

/-- Without other instances a call creates a step. -/
theorem initial_call {c : Call κ} {key : CacheKey κ} (hkey : c.key? info = some key) :
    ((State.initial : State κ).call info printing c).1 = .ok (instantiate info printing 0 key) := by
  rcases call_cases printing State.initial hkey with
    ⟨-, hcall⟩ | ⟨-, found, hfound, -⟩ | ⟨-, -, hcall⟩
  · rw [hcall]
    rfl
  · simp [State.initial] at hfound
  · rw [hcall]
    rfl

/-- The step shows what its call would create. -/
def Faithful (info : κ → StepClass) (printing : Printing) (entry : CacheKey κ × Instance κ) :
    Prop :=
  entry.2.shown info = (instantiate info printing 0 entry.1).shown info

theorem alone_iff (state : State κ) (calls : List (Call κ)) :
    (state.results info printing calls).map (Except.map (Instance.shown info)) =
        calls.map (fun c => (State.initial.call info printing c).1.map (Instance.shown info)) ↔
      ∀ entry ∈ state.traced info printing calls, Faithful info printing entry := by
  induction calls generalizing state with
  | nil => simp [State.results, State.traced]
  | cons c calls ih =>
      rw [State.results, List.map_cons, List.map_cons, List.cons.injEq, ih]
      cases hkey : c.key? info with
      | none =>
          obtain ⟨error, hcall, hvalues⟩ :=
            call_of_key?_eq_none printing state hkey
          have hinitial : ((State.initial : State κ).call info printing c).1 = .error error := by
            rw [State.call, hvalues]
          rw [traced_of_none hkey, hcall, hinitial]
          exact and_iff_right rfl
      | some key =>
          rw [initial_call hkey]
          obtain ⟨step, hstep⟩ := call_of_key printing state hkey
          rw [traced_of_key hkey hstep, List.forall_mem_cons, hstep]
          exact and_congr_left fun _ => ⟨Except.ok.inj, congrArg Except.ok⟩

/-- The texts of all parameters decide which of them enter the id. -/
theorem toStrParams_of_serialized {cls : StepClass} {values others : ParamValues}
    (htexts : cls.serialized values = cls.serialized others) (onlySignificant onlyPublic : Bool) :
    cls.toStrParams onlySignificant onlyPublic values =
      cls.toStrParams onlySignificant onlyPublic others := by
  have hchosen (values : ParamValues) : cls.toStrParams onlySignificant onlyPublic values =
      (cls.serialized values).filterMap fun entry => (cls.param? entry.1).bind fun param =>
        if (!onlySignificant || param.significant) &&
            (!onlyPublic || param.visibility = .isPublic) && param.visibility ≠ .isPrivate
        then some entry else none := by
    rw [StepClass.serialized, List.filterMap_map]
    refine List.filterMap_congr fun entry _ => ?_
    cases hparam : cls.param? entry.1 with
    | none => simp [hparam]
    | some param => simp [hparam]
  rw [hchosen, hchosen, htexts]

omit [DecidableEq κ] in
theorem shown_of_serialized {key other : CacheKey κ} (hcls : key.1 = other.1)
    (htexts : (info key.1).serialized key.2 = (info other.1).serialized other.2) :
    (instantiate info printing 0 key).shown info =
      (instantiate info printing 0 other).shown info := by
  obtain ⟨cls, values⟩ := key
  obtain ⟨_, others⟩ := other
  subst hcls
  simp only [Instance.shown, instantiate, htexts, toStrParams_of_serialized htexts]

omit [DecidableEq κ] in
theorem Linked.symm {entry other : CacheKey κ × Instance κ} (hlinked : Linked entry other) :
    Linked other entry := by
  refine ⟨fun hobject => ?_, fun ⟨hsame, hhash⟩ => ?_⟩
  · obtain ⟨hsame, hhash⟩ := hlinked.mp hobject.symm
    exact ⟨hsame.symm, (hashableValues_of_same hsame.2).trans hhash⟩
  · exact (hlinked.mpr ⟨hsame.symm, (hashableValues_of_same hsame.2).trans hhash⟩).symm

instance : Std.Symm (Linked (κ := κ)) := ⟨fun _ _ => Linked.symm⟩

omit [DecidableEq κ] in
theorem Agree.symm {key other : CacheKey κ} (hagree : Agree info key other) :
    Agree info other key := by
  intro hcls
  refine ⟨fun ⟨hhash, hsame⟩ => ?_, fun htexts => ?_⟩
  · exact ((hagree hcls.symm).mp
      ⟨(hashableValues_of_same hsame).trans hhash, sameValues_symm hsame⟩).symm
  · obtain ⟨hhash, hsame⟩ := (hagree hcls.symm).mpr htexts.symm
    exact ⟨(hashableValues_of_same hsame).trans hhash, sameValues_symm hsame⟩

instance : Std.Symm fun entry other : CacheKey κ × Instance κ => Agree info entry.1 other.1 :=
  ⟨fun _ _ => Agree.symm⟩

/-- The steps of a run, each with the first of its object. -/
theorem traced_origin {calls : List (Call κ)} {entry : CacheKey κ × Instance κ}
    (hmem : entry ∈ State.initial.traced info printing calls) :
    ∃ first ∈ State.initial.traced info printing calls, first.2 = entry.2 ∧
      Created info printing first ∧ (first = entry ∨ SameKey first.1 entry.1 ∧
        hashableValues entry.1.2 = true) := by
  obtain ⟨after, hknown, hlinked⟩ :=
    (known_initial info printing).run List.Pairwise.nil calls
  obtain ⟨first, hfirst, hstep, hcreated⟩ := hknown.origin entry hmem
  refine ⟨first, hfirst, hstep, hcreated, ?_⟩
  by_cases heq : first = entry
  · exact .inl heq
  · exact .inr ((hlinked.forall hfirst hmem heq).mp (by rw [hstep]))

theorem traced_cls {calls : List (Call κ)} {entry : CacheKey κ × Instance κ}
    (hmem : entry ∈ State.initial.traced info printing calls) : entry.2.cls = entry.1.1 := by
  obtain ⟨first, -, hstep, hcreated, hsame⟩ := traced_origin hmem
  have hcls : entry.2.cls = first.1.1 := by
    rw [← hstep, hcreated]
    rfl
  rcases hsame with rfl | ⟨hsame, -⟩
  · exact hcls
  · exact hcls.trans hsame.1

theorem faithful_of_agree {calls : List (Call κ)} (hagree : KeysAgree info calls)
    {entry : CacheKey κ × Instance κ} (hmem : entry ∈ State.initial.traced info printing calls) :
    Faithful info printing entry := by
  obtain ⟨first, hfirst, hstep, hcreated, hsame⟩ := traced_origin hmem
  have hshown : entry.2.shown info = (instantiate info printing 0 first.1).shown info := by
    rw [← hstep, hcreated]
    rfl
  rcases hsame with rfl | ⟨hsame, hhash⟩
  · exact hshown
  · have hpairs : (State.initial.traced info printing calls).Pairwise
        fun entry other => Agree info entry.1 other.1 := by
      rw [KeysAgree, ← traced_keys printing State.initial, List.pairwise_map] at hagree
      exact hagree
    by_cases heq : first = entry
    · exact heq ▸ hshown
    · have htexts := (hpairs.forall hfirst hmem heq hsame.1).mp ⟨hhash, hsame.2⟩
      exact hshown.trans (shown_of_serialized hsame.1 htexts)

/-- Where steps show what their calls would create, the links turn one condition into the other. -/
theorem identity_iff_agree {calls : List (Call κ)}
    (hfaithful : ∀ entry ∈ State.initial.traced info printing calls, Faithful info printing entry)
    {entry other : CacheKey κ × Instance κ}
    (hentry : entry ∈ State.initial.traced info printing calls)
    (hother : other ∈ State.initial.traced info printing calls) (hlink : Linked entry other) :
    (entry.2.cls = other.2.cls → (entry.2.object = other.2.object ↔
      (info entry.2.cls).serialized entry.2.paramKwargs =
        (info other.2.cls).serialized other.2.paramKwargs)) ↔ Agree info entry.1 other.1 := by
  have htexts : (info entry.2.cls).serialized entry.2.paramKwargs =
      (info entry.1.1).serialized entry.1.2 := congrArg Prod.fst (hfaithful entry hentry)
  have hothers : (info other.2.cls).serialized other.2.paramKwargs =
      (info other.1.1).serialized other.1.2 := congrArg Prod.fst (hfaithful other hother)
  rw [htexts, hothers, traced_cls hentry, traced_cls hother]
  refine imp_congr_right fun hcls => iff_congr ?_ Iff.rfl
  calc entry.2.object = other.2.object
      ↔ SameKey entry.1 other.1 ∧ hashableValues other.1.2 = true := hlink
    _ ↔ hashableValues other.1.2 = true ∧ sameValues entry.1.2 other.1.2 = true :=
        ⟨fun h => ⟨h.2, h.1.2⟩, fun h => ⟨⟨hcls, h.2⟩, h.1⟩⟩

theorem traced_linked (calls : List (Call κ)) :
    (State.initial.traced info printing calls).Pairwise Linked := by
  obtain ⟨after, -, hlinked⟩ :=
    (known_initial info printing).run List.Pairwise.nil calls
  simpa only [List.nil_append] using hlinked

theorem Transparent.keysAgree {calls : List (Call κ)}
    (htransparent : Transparent info printing calls) : KeysAgree info calls := by
  have hfaithful := (alone_iff State.initial calls).mp htransparent.alone
  have hidentity := htransparent.identity
  rw [← traced_steps, List.pairwise_map] at hidentity
  rw [KeysAgree, ← traced_keys printing State.initial, List.pairwise_map]
  exact ((traced_linked calls).and hidentity).imp_of_mem fun hentry hother h =>
    (identity_iff_agree hfaithful hentry hother h.1).mp h.2

theorem KeysAgree.transparent {calls : List (Call κ)} (hagree : KeysAgree info calls) :
    Transparent info printing calls := by
  have hfaithful : ∀ entry ∈ State.initial.traced info printing calls,
      Faithful info printing entry := fun entry hmem => faithful_of_agree hagree hmem
  refine ⟨(alone_iff State.initial calls).mpr hfaithful, ?_⟩
  rw [KeysAgree, ← traced_keys printing State.initial, List.pairwise_map] at hagree
  rw [← traced_steps, List.pairwise_map]
  exact ((traced_linked calls).and hagree).imp_of_mem fun hentry hother h =>
    (identity_iff_agree hfaithful hentry hother h.1).mpr h.2

/-- The cache cannot be told from creating every step anew exactly where Python finds the values of
two calls equal, and can look them up, just when they serialize equally. -/
theorem transparent_iff (info : κ → StepClass) (printing : Printing) (calls : List (Call κ)) :
    Transparent info printing calls ↔ KeysAgree info calls :=
  ⟨Transparent.keysAgree, KeysAgree.transparent⟩

end Cache

/-! ## Numbers that are equal -/

namespace Sample

/-- `str` of the values below. -/
def str : Value → String
  | .scalar (.int n) => toString n
  | .scalar (.float (.finite value)) => toString value.num ++ ".0"
  | .scalar (.str text) => text
  | _ => ""

def dumpsParams (params : List (String × String)) : String :=
  "\x7b" ++ ",".intercalate (params.map fun entry =>
    "\"" ++ entry.1 ++ "\":\"" ++ entry.2 ++ "\"") ++ "\x7d"

def md5 (text : String) : String :=
  if text = "\x7b\"x\":\"1\"\x7d" then "978d9e1e620e8298156538290b25b7c4"
  else "70d913d77b92f6a948abc7559369041f"

def printing : Printing := { str := str, dumps := str, dumpsParams := dumpsParams, md5 := md5 }

/-- `class S(Step): x = FloatParameter()`. -/
def cls : StepClass where
  stepFamily := "S"
  params := [("x", floatParameter printing)]
  nodup := by simp

/-- `S(value)`. -/
def callWith (value : Scalar) : Call Unit := ⟨(), [.scalar value], ∅⟩

end Sample

open Sample in
/-- `S(1.0)` shows the text `1` after `S(1)`, and `S(1)` is not `S("1")`. -/
theorem equal_numbers_conflated :
    ¬Transparent (fun _ => cls) printing [callWith (.int 1), callWith (.float (.finite 1))] ∧
      ¬Transparent (fun _ => cls) printing [callWith (.int 1), callWith (.str "1")] := by
  constructor
  · intro htransparent
    have hagree := htransparent.keysAgree
    revert hagree
    unfold KeysAgree Agree
    decide
  · intro htransparent
    have hagree := htransparent.keysAgree
    revert hagree
    unfold KeysAgree Agree
    decide

end Trun.Register
