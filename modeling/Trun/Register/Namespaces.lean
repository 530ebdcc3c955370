import Mathlib.Data.List.Induction
import Mathlib.Order.Lattice.Nat
import Trun.Python.Dict

/-!
# Namespaces of steps

`namespace` and `auto_namespace` declare a namespace for a scope, and a class
takes the one of the most specific scope that has its module.  A scope can be
set back to the empty namespace, which the lookup passes over.
-/

namespace Trun.Names

/-- What `Register` asks of a step class. -/
structure StepClass where
  name : String
  module : String
  stepNamespace : Option String
  namespaceAtClassTime : String

def sameAsPythonModule : String := "_same_as_python_module"

def StepClass.getStepNamespace (cls : StepClass) : String :=
  match cls.stepNamespace with
  | some namespace_ => namespace_
  | none => if cls.namespaceAtClassTime = sameAsPythonModule then cls.module
    else cls.namespaceAtClassTime

def StepClass.getStepFamily (cls : StepClass) : String :=
  if cls.getStepNamespace = "" then cls.name else cls.getStepNamespace ++ "." ++ cls.name

/-! ## Declarations -/

/-- `namespace`. -/
def declareNamespace (defaults : Dict String String) (namespace_ : Option String)
    (scope : String) : Dict String String :=
  defaults.set scope (namespace_.getD "")

def autoNamespace (defaults : Dict String String) (scope : String) : Dict String String :=
  declareNamespace defaults (some sameAsPythonModule) scope

inductive Declaration where
  | namespace_ (name : Option String) (scope : String)
  | autoNamespace (scope : String)

namespace Declaration

def run (defaults : Dict String String) : Declaration → Dict String String
  | .namespace_ name scope => declareNamespace defaults name scope
  | .autoNamespace scope => Names.autoNamespace defaults scope

def scope : Declaration → String
  | .namespace_ _ scope => scope
  | .autoNamespace scope => scope

/-- The namespace that is declared. -/
def value : Declaration → String
  | .namespace_ name _ => name.getD ""
  | .autoNamespace _ => sameAsPythonModule

theorem run_eq (defaults : Dict String String) (declaration : Declaration) :
    declaration.run defaults = defaults.set declaration.scope declaration.value := by
  cases declaration <;> rfl

end Declaration

/-- `Register._default_namespace_dict` after the declarations. -/
def declared (declarations : List Declaration) : Dict String String :=
  declarations.foldl Declaration.run ∅

def moduleParents (moduleName : String) : List String :=
  let spl := moduleName.toList.splitOn '.'
  (List.range' 1 spl.length).reverse.map
      (fun i => String.ofList (['.'].intercalate (spl.take i))) ++
    if moduleName = "" then [] else [""]

def getNamespace (defaults : Dict String String) (moduleName : String) : String :=
  ((moduleParents moduleName).findSome? fun parent =>
    (defaults.get? parent).filter fun entry => entry ≠ "").getD ""

example : moduleParents "a.b" = ["a.b", "a", ""] := by decide

/-! ## The scopes of a module -/

section Scopes

variable {moduleName scope other : String} {declarations : List Declaration}

/-- The scope is the module, a package of it, or empty. -/
def ScopeOf (scope moduleName : String) : Prop :=
  scope = moduleName ∨ scope = "" ∨ ∃ rest, moduleName.toList = scope.toList ++ '.' :: rest

/-- What was last declared for the scope. -/
def lastValue (declarations : List Declaration) (scope : String) : Option String :=
  (declarations.reverse.find? fun declaration => declaration.scope = scope).map Declaration.value

/-- The longest scope of the module with a declaration. -/
structure MostSpecific (declarations : List Declaration) (moduleName scope : String) : Prop where
  scopeOf : ScopeOf scope moduleName
  isSome : (lastValue declarations scope).isSome
  longest : ∀ other, ScopeOf other moduleName → (lastValue declarations other).isSome →
    other.length ≤ scope.length

/-- The namespace of the most specific declaration, or none without a declaration. -/
structure Specified (declarations : List Declaration) (moduleName value : String) : Prop where
  declared : ∀ scope, MostSpecific declarations moduleName scope →
    lastValue declarations scope = some value
  undeclared : (∀ scope, ¬MostSpecific declarations moduleName scope) → value = ""

theorem get?_declared (declarations : List Declaration) (scope : String) :
    (declared declarations).get? scope = lastValue declarations scope := by
  induction declarations using List.reverseRecOn with
  | nil => rfl
  | append_singleton declarations last ih =>
      rw [declared, List.foldl_append, List.foldl_cons, List.foldl_nil, Declaration.run_eq,
        Dict.get?_set, lastValue, List.reverse_append, List.reverse_singleton,
        List.singleton_append, List.find?_cons]
      by_cases hscope : scope = last.scope
      · subst hscope
        simp
      · have hother : ¬last.scope = scope := fun heq => hscope heq.symm
        rw [if_neg hscope, decide_eq_false hother]
        exact ih

theorem intercalate_append {α : Type} (sep : List α) {front back : List (List α)}
    (hfront : front ≠ []) (hback : back ≠ []) :
    sep.intercalate (front ++ back) = sep.intercalate front ++ sep ++ sep.intercalate back := by
  induction front with
  | nil => exact absurd rfl hfront
  | cons piece rest ih =>
      by_cases hrest : rest = []
      · subst hrest
        rw [List.singleton_append, List.intercalate_cons_of_ne_nil hback,
          List.intercalate_singleton]
      · rw [List.cons_append, List.intercalate_cons_of_ne_nil (by simp [hrest]), ih hrest,
          List.intercalate_cons_of_ne_nil hrest]
        simp

theorem take_append_prefix (pieces : List (List Char)) {i j : ℕ} (hi : 1 ≤ i) (hlt : i < j)
    (hj : j ≤ pieces.length) : ∃ rest, ['.'].intercalate (pieces.take j) =
      ['.'].intercalate (pieces.take i) ++ '.' :: rest := by
  have hsplit : pieces.take j = pieces.take i ++ (pieces.take j).drop i := by
    have htake : (pieces.take j).take i = pieces.take i := by
      rw [List.take_take, Nat.min_eq_left hlt.le]
    rw [← htake, List.take_append_drop]
  have hfront : pieces.take i ≠ [] := by
    apply List.ne_nil_of_length_pos
    rw [List.length_take]
    omega
  have hback : (pieces.take j).drop i ≠ [] := by
    apply List.ne_nil_of_length_pos
    rw [List.length_drop, List.length_take]
    omega
  rw [hsplit, intercalate_append _ hfront hback, List.append_assoc, List.singleton_append]
  exact ⟨_, rfl⟩

theorem mem_moduleParents : scope ∈ moduleParents moduleName ↔ ScopeOf scope moduleName := by
  have hmodule : ['.'].intercalate (moduleName.toList.splitOn '.') = moduleName.toList :=
    List.intercalate_splitOn '.'
  have hne := List.splitOn_ne_nil '.' moduleName.toList
  rw [moduleParents, List.mem_append, List.mem_map]
  constructor
  · rintro (⟨i, hi, rfl⟩ | hempty)
    · rw [List.mem_reverse, List.mem_range'_1] at hi
      obtain heq | hlt : i = (moduleName.toList.splitOn '.').length ∨
          i < (moduleName.toList.splitOn '.').length := by omega
      · left
        rw [heq, List.take_length, hmodule, String.ofList_toList]
      · right
        right
        obtain ⟨rest, hrest⟩ := take_append_prefix (moduleName.toList.splitOn '.') hi.1 hlt
          le_rfl
        rw [List.take_length, hmodule] at hrest
        exact ⟨rest, by rw [String.toList_ofList]; exact hrest⟩
    · split_ifs at hempty with hname
      · cases hempty
      · exact .inr (.inl (List.mem_singleton.mp hempty))
  · rintro (rfl | rfl | ⟨rest, hrest⟩)
    · refine .inl ⟨(scope.toList.splitOn '.').length, ?_, ?_⟩
      · rw [List.mem_reverse, List.mem_range'_1]
        have := List.length_pos_iff.mpr hne
        omega
      · rw [List.take_length, hmodule, String.ofList_toList]
    · by_cases hname : moduleName = ""
      · subst hname
        exact .inl ⟨1, by decide, by decide⟩
      · rw [if_neg hname]
        exact .inr (List.mem_singleton_self _)
    · have hpieces := List.splitOn_append_cons_self (a := '.') scope.toList rest
      have hscope := List.length_pos_iff.mpr (List.splitOn_ne_nil '.' scope.toList)
      refine .inl ⟨(scope.toList.splitOn '.').length, ?_, ?_⟩
      · rw [hrest, hpieces, List.mem_reverse, List.mem_range'_1, List.length_append]
        omega
      · rw [hrest, hpieces, List.take_left' rfl, List.intercalate_splitOn, String.ofList_toList]

/-- The scopes come from the longest to the shortest. -/
theorem pairwise_moduleParents (moduleName : String) :
    (moduleParents moduleName).Pairwise fun scope other => other.length ≤ scope.length := by
  rw [moduleParents, List.pairwise_append]
  refine ⟨?_, ?_, ?_⟩
  · rw [List.pairwise_map, List.pairwise_reverse]
    apply (List.pairwise_lt_range' (s := 1)).imp_of_mem
    intro i j hi hj hlt
    rw [List.mem_range'_1] at hi hj
    obtain ⟨rest, hrest⟩ := take_append_prefix (moduleName.toList.splitOn '.') hi.1 hlt
      (by omega)
    rw [String.length_ofList, String.length_ofList, hrest, List.length_append]
    omega
  · split_ifs
    · exact .nil
    · exact List.pairwise_singleton _ _
  · intro scope _ other hother
    split_ifs at hother with hname
    · cases hother
    · rw [List.mem_singleton.mp hother]
      exact Nat.zero_le _

theorem ScopeOf.isPrefix (hscope : ScopeOf scope moduleName) :
    scope.toList <+: moduleName.toList := by
  rcases hscope with rfl | rfl | ⟨rest, hrest⟩
  · exact List.prefix_rfl
  · exact List.nil_prefix
  · exact ⟨_, hrest.symm⟩

theorem MostSpecific.unique (hscope : MostSpecific declarations moduleName scope)
    (hother : MostSpecific declarations moduleName other) : scope = other := by
  have hlength : scope.length = other.length :=
    le_antisymm (hother.longest scope hscope.scopeOf hscope.isSome)
      (hscope.longest other hother.scopeOf hother.isSome)
  rw [← String.length_toList, ← String.length_toList] at hlength
  have hstarts := List.prefix_of_prefix_length_le hscope.scopeOf.isPrefix hother.scopeOf.isPrefix
    hlength.le
  exact String.toList_injective (hstarts.eq_of_length hlength)

/-- The first scope of the walk that has a declaration is the most specific one. -/
theorem mostSpecific_of_split {front back : List String}
    (hsplit : moduleParents moduleName = front ++ scope :: back)
    (hfront : ∀ other ∈ front, lastValue declarations other = none)
    (hscope : (lastValue declarations scope).isSome) :
    MostSpecific declarations moduleName scope where
  scopeOf := mem_moduleParents.mp (by rw [hsplit]; simp)
  isSome := hscope
  longest := by
    intro other hother hsome
    rw [← mem_moduleParents, hsplit, List.mem_append, List.mem_cons] at hother
    rcases hother with hmem | rfl | hmem
    · rw [hfront other hmem] at hsome
      cases hsome
    · exact le_rfl
    · have hpairwise := pairwise_moduleParents moduleName
      rw [hsplit, List.pairwise_append] at hpairwise
      exact (List.pairwise_cons.mp hpairwise.2.1).1 other hmem

theorem exists_mostSpecific (hother : ScopeOf other moduleName)
    (hsome : (lastValue declarations other).isSome) :
    ∃ scope, MostSpecific declarations moduleName scope := by
  have hfound : ((moduleParents moduleName).find? fun scope =>
      (lastValue declarations scope).isSome).isSome :=
    List.find?_isSome.mpr ⟨other, mem_moduleParents.mpr hother, hsome⟩
  obtain ⟨scope, hfind⟩ := Option.isSome_iff_exists.mp hfound
  obtain ⟨hscope, front, back, hsplit, hfront⟩ := List.find?_eq_some_iff_append.mp hfind
  refine ⟨scope, mostSpecific_of_split hsplit ?_ hscope⟩
  intro other hmem
  simpa using hfront other hmem

/-- An empty answer is given where no scope of the module has a namespace. -/
theorem getNamespace_eq_empty_iff : getNamespace (declared declarations) moduleName = "" ↔
    ∀ scope, ScopeOf scope moduleName → ∀ value ∈ lastValue declarations scope, value = "" := by
  have hentry : ∀ scope value, ((declared declarations).get? scope).filter (fun entry => entry ≠ "")
      = some value ↔ lastValue declarations scope = some value ∧ value ≠ "" := by
    intro scope value
    rw [get?_declared, Option.filter_eq_some_iff]
    simp
  rw [getNamespace]
  cases hfind : (moduleParents moduleName).findSome? fun parent =>
      ((declared declarations).get? parent).filter fun entry => entry ≠ "" with
  | none =>
      rw [List.findSome?_eq_none_iff] at hfind
      simp only [Option.getD_none, true_iff]
      intro scope hscope value hvalue
      by_contra hne
      have hnone := hfind scope (mem_moduleParents.mpr hscope)
      rw [(hentry scope value).mpr ⟨hvalue, hne⟩] at hnone
      cases hnone
  | some value =>
      obtain ⟨scope, hscope, hvalue⟩ := List.exists_of_findSome?_eq_some hfind
      obtain ⟨hlast, hne⟩ := (hentry scope value).mp hvalue
      simp only [Option.getD_some, hne, false_iff]
      exact fun hall => hne (hall scope (mem_moduleParents.mp hscope) value hlast)

/-- The namespace of the most specific declaration is the answer unless it is empty. -/
theorem getNamespace_of_ne {value : String}
    (hscope : MostSpecific declarations moduleName scope)
    (hvalue : lastValue declarations scope = some value) (hne : value ≠ "") :
    getNamespace (declared declarations) moduleName = value := by
  have hfound : ((moduleParents moduleName).find? fun scope =>
      (lastValue declarations scope).isSome).isSome :=
    List.find?_isSome.mpr ⟨scope, mem_moduleParents.mpr hscope.scopeOf, hscope.isSome⟩
  obtain ⟨first, hfind⟩ := Option.isSome_iff_exists.mp hfound
  obtain ⟨hfirst, front, back, hsplit, hfront⟩ := List.find?_eq_some_iff_append.mp hfind
  have hnone : ∀ other ∈ front, lastValue declarations other = none := by
    intro other hmem
    simpa using hfront other hmem
  obtain rfl := (mostSpecific_of_split hsplit hnone hfirst).unique hscope
  have hskip : front.findSome? (fun parent =>
      ((declared declarations).get? parent).filter fun entry => entry ≠ "") = none := by
    rw [List.findSome?_eq_none_iff]
    intro other hmem
    rw [get?_declared, hnone other hmem]
    rfl
  rw [getNamespace, hsplit, List.findSome?_append, hskip, Option.none_or, List.findSome?_cons,
    get?_declared, hvalue, Option.filter_some, if_pos (decide_eq_true hne)]
  rfl

/-- The most specific declaration is not a reset, or there is no namespace behind it. -/
def NotHidden (declarations : List Declaration) (moduleName : String) : Prop :=
  ∀ scope, MostSpecific declarations moduleName scope → lastValue declarations scope = some "" →
    ∀ other, ScopeOf other moduleName → ∀ value ∈ lastValue declarations other, value = ""

/-- A reset is passed over where a less specific scope has a namespace. -/
theorem getNamespace_specified_iff (declarations : List Declaration) (moduleName : String) :
    Specified declarations moduleName (getNamespace (declared declarations) moduleName) ↔
      NotHidden declarations moduleName := by
  constructor
  · intro hspecified scope hscope hempty
    have hvalue := hspecified.declared scope hscope
    rw [hempty] at hvalue
    exact getNamespace_eq_empty_iff.mp (Option.some.inj hvalue).symm
  · intro hhidden
    constructor
    · intro scope hscope
      obtain ⟨value, hvalue⟩ := Option.isSome_iff_exists.mp hscope.isSome
      by_cases hne : value = ""
      · subst hne
        rw [hvalue, getNamespace_eq_empty_iff.mpr (hhidden scope hscope hvalue)]
      · rw [hvalue, getNamespace_of_ne hscope hvalue hne]
    · intro hnone
      apply getNamespace_eq_empty_iff.mpr
      intro scope hscope value hvalue
      obtain ⟨most, hmost⟩ :=
        exists_mostSpecific hscope (Option.isSome_iff_exists.mpr ⟨value, hvalue⟩)
      exact absurd hmost (hnone most)

/-- The package `a` has a namespace, and its package `a.b` is set back. -/
theorem getNamespace_reset : ¬Specified
    [.namespace_ (some "outer") "a", .namespace_ none "a.b"] "a.b.steps"
    (getNamespace (declared [.namespace_ (some "outer") "a", .namespace_ none "a.b"])
      "a.b.steps") := by
  intro hspecified
  have hmost : MostSpecific [.namespace_ (some "outer") "a", .namespace_ none "a.b"] "a.b.steps"
      "a.b" := by
    have hsplit : moduleParents "a.b.steps" = ["a.b.steps"] ++ "a.b" :: ["a", ""] := by decide
    refine mostSpecific_of_split hsplit ?_ (by decide)
    intro other hother
    rw [List.mem_singleton.mp hother]
    decide
  exact absurd (hspecified.declared "a.b" hmost) (by decide)

end Scopes

end Trun.Names
