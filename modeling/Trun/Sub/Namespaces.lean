import Mathlib.Data.List.MinMax
import Trun.Register.Namespaces

/-!
# Namespaces in the C++ register

The C++ `moduleParents` cuts the module name at its dots and reverses the pieces, where the
Python one yields the prefixes of the name.  The two registers agree on a module if the last of
its pieces that is a scope and its longest prefix that is one have the same namespace.
-/

namespace Trun.Sub

open Trun.Names (ScopeOf)

/-- The loop of `moduleParents`: what stands before the first dot is a token, and is erased. -/
def tokens (s : List Char) : List (List Char) :=
  let pos := s.idxOf '.'
  if pos < s.length then s.take pos :: tokens (s.drop (pos + 1)) else [s]
termination_by s.length
decreasing_by
  rw [List.length_drop]
  omega

def moduleParents (moduleName : String) : List String :=
  ((tokens moduleName.toList).map String.ofList).reverse

def getNamespace (defaultNamespaceDict : Dict String String) (moduleName : String) : String :=
  ((moduleParents moduleName).findSome? fun parent => defaultNamespaceDict.get? parent).getD ""

/-- A table from scopes to namespaces, none of which is empty. -/
structure NamespaceTable where
  entries : Dict String String
  nonempty : ∀ scope, entries.get? scope ≠ some ""

/-- The registers resolve the namespace of the module alike. -/
def Agree (table : NamespaceTable) (moduleName : String) : Prop :=
  getNamespace table.entries moduleName = Names.getNamespace table.entries moduleName

/-- The namespace of the last piece of the module name that is a scope. -/
def OfLastPiece (table : NamespaceTable) (moduleName value : String) : Prop :=
  ∃ front piece back, moduleName.toList.splitOn '.' = front ++ piece :: back ∧
    table.entries.get? (.ofList piece) = some value ∧
      ∀ other ∈ back, table.entries.get? (.ofList other) = none

/-- The namespace of the longest prefix of the module name that is a scope, or of the empty
scope. -/
def OfLongestPrefix (table : NamespaceTable) (moduleName value : String) : Prop :=
  ∃ scope, ScopeOf scope moduleName ∧ table.entries.get? scope = some value ∧
    ∀ other, ScopeOf other moduleName → (table.entries.get? other).isSome →
      other.length ≤ scope.length

variable {table : NamespaceTable} {moduleName scope value : String}

theorem tokens_eq_splitOn (s : List Char) : tokens s = s.splitOn '.' := by
  induction hn : s.length using Nat.strongRecOn generalizing s with
  | _ n ih =>
      rw [tokens]
      by_cases hdot : '.' ∈ s
      · obtain ⟨front, back, rfl, hfront⟩ := List.eq_append_cons_of_mem hdot
        have hpos : (front ++ '.' :: back).idxOf '.' = front.length := by
          rw [List.idxOf_append_of_notMem hfront, List.idxOf_cons_self, Nat.add_zero]
        have hlt : back.length < n := by
          rw [← hn, List.length_append, List.length_cons]
          omega
        have hdrop : (front ++ '.' :: back).drop (front.length + 1) = back := by simp
        rw [hpos, if_pos (by simp), List.take_left' rfl, hdrop, ih back.length hlt back rfl,
          List.splitOn_append_cons_self_of_not_mem hfront]
      · rw [if_neg (by rw [List.idxOf_lt_length_iff]; exact hdot), List.splitOn_eq_singleton hdot]

theorem moduleParents_eq (moduleName : String) :
    moduleParents moduleName = ((moduleName.toList.splitOn '.').map String.ofList).reverse := by
  rw [moduleParents, tokens_eq_splitOn]

/-! ## The two answers -/

theorem findSome?_moduleParents_iff :
    (moduleParents moduleName).findSome? table.entries.get? = some value ↔
      OfLastPiece table moduleName value := by
  rw [moduleParents_eq, List.findSome?_eq_some_iff]
  constructor
  · rintro ⟨back, parent, front, hsplit, hvalue, hback⟩
    rw [List.reverse_eq_iff, List.reverse_append, List.reverse_cons, List.append_assoc,
      List.singleton_append] at hsplit
    obtain ⟨before, rest, hpieces, -, hrest⟩ := List.map_eq_append_iff.mp hsplit
    obtain ⟨piece, after, rfl, rfl, hafter⟩ := List.map_eq_cons_iff.mp hrest
    refine ⟨before, piece, after, hpieces, hvalue, fun other hother => hback _ ?_⟩
    rw [← List.mem_reverse, ← hafter]
    exact List.mem_map_of_mem hother
  · rintro ⟨front, piece, back, hpieces, hvalue, hback⟩
    refine ⟨(back.map String.ofList).reverse, .ofList piece, (front.map String.ofList).reverse,
      ?_, hvalue, ?_⟩
    · rw [hpieces]
      simp
    · intro other hother
      obtain ⟨chars, hchars, rfl⟩ := List.mem_map.mp (List.mem_reverse.mp hother)
      exact hback chars hchars

/-- Where no namespace is empty, the first scope of the walk decides. -/
theorem getNamespace_eq_findSome? (table : NamespaceTable) (moduleName : String) :
    Names.getNamespace table.entries moduleName =
      ((Names.moduleParents moduleName).findSome? table.entries.get?).getD "" := by
  have hfilter : (fun parent => (table.entries.get? parent).filter fun entry => entry ≠ "") =
      table.entries.get? := by
    funext parent
    cases hget : table.entries.get? parent with
    | none => rfl
    | some entry =>
        have hne : entry ≠ "" := fun heq => table.nonempty parent (heq ▸ hget)
        rw [Option.filter_some, if_pos (decide_eq_true hne)]
  rw [Names.getNamespace, hfilter]

theorem findSome?_iff_ofLongestPrefix :
    (Names.moduleParents moduleName).findSome? table.entries.get? = some value ↔
      OfLongestPrefix table moduleName value := by
  have hfound : ∀ value, (Names.moduleParents moduleName).findSome? table.entries.get? =
      some value → OfLongestPrefix table moduleName value := by
    intro value hfind
    obtain ⟨front, scope, back, hsplit, hvalue, hfront⟩ := List.findSome?_eq_some_iff.mp hfind
    refine ⟨scope, Names.mem_moduleParents.mp (by rw [hsplit]; simp), hvalue, ?_⟩
    intro other hother hsome
    rw [← Names.mem_moduleParents, hsplit, List.mem_append, List.mem_cons] at hother
    rcases hother with hmem | rfl | hmem
    · rw [hfront other hmem] at hsome
      cases hsome
    · exact le_rfl
    · have hpairwise := Names.pairwise_moduleParents moduleName
      rw [hsplit, List.pairwise_append] at hpairwise
      exact (List.pairwise_cons.mp hpairwise.2.1).1 other hmem
  refine ⟨hfound value, ?_⟩
  rintro ⟨scope, hscope, hvalue, hlongest⟩
  cases hfind : (Names.moduleParents moduleName).findSome? table.entries.get? with
  | none =>
      rw [List.findSome?_eq_none_iff] at hfind
      rw [hfind scope (Names.mem_moduleParents.mpr hscope)] at hvalue
      cases hvalue
  | some found =>
      obtain ⟨other, hother, hfound, hlongest'⟩ := hfound found hfind
      have hsame : scope = other := by
        have hlength : scope.length = other.length := le_antisymm
          (hlongest' scope hscope (by rw [hvalue]; rfl))
          (hlongest other hother (by rw [hfound]; rfl))
        rw [← String.length_toList, ← String.length_toList] at hlength
        have hstarts := List.prefix_of_prefix_length_le hscope.isPrefix hother.isPrefix hlength.le
        exact String.toList_injective (hstarts.eq_of_length hlength)
      rw [← hfound, ← hsame, hvalue]

/-- Both answers are empty just where nothing is found. -/
theorem getD_eq_getD_iff {left right : Option String} (hleft : left ≠ some "")
    (hright : right ≠ some "") :
    left.getD "" = right.getD "" ↔ ∀ value, left = some value ↔ right = some value := by
  constructor
  · intro heq
    have hsame : left = right := by
      cases left <;> cases right <;> simp_all
    simp [hsame]
  · intro heq
    rw [Option.ext fun value => heq value]

theorem findSome?_ne_empty (table : NamespaceTable) (scopes : List String) :
    scopes.findSome? table.entries.get? ≠ some "" := by
  intro hfind
  obtain ⟨scope, -, hempty⟩ := List.exists_of_findSome?_eq_some hfind
  exact table.nonempty scope hempty

theorem agree_iff : Agree table moduleName ↔
    ∀ value, OfLastPiece table moduleName value ↔ OfLongestPrefix table moduleName value := by
  rw [Agree, getNamespace_eq_findSome?, getNamespace,
    getD_eq_getD_iff (findSome?_ne_empty table _) (findSome?_ne_empty table _)]
  exact forall_congr' fun value => iff_congr findSome?_moduleParents_iff
    findSome?_iff_ofLongestPrefix

/-- A module name without a dot is its only piece. -/
theorem ofLastPiece_iff_of_not_mem (hdot : '.' ∉ moduleName.toList) :
    OfLastPiece table moduleName value ↔ table.entries.get? moduleName = some value := by
  rw [← findSome?_moduleParents_iff, moduleParents_eq, List.splitOn_eq_singleton hdot]
  simp

/-- No piece of a module name has a dot. -/
theorem not_mem_piece {s piece : List Char} (hpiece : piece ∈ s.splitOn '.') : '.' ∉ piece := by
  induction hn : s.length using Nat.strongRecOn generalizing s with
  | _ n ih =>
      by_cases hdot : '.' ∈ s
      · obtain ⟨front, back, rfl, hfront⟩ := List.eq_append_cons_of_mem hdot
        rw [List.splitOn_append_cons_self_of_not_mem hfront] at hpiece
        rcases List.mem_cons.mp hpiece with rfl | hback
        · exact hfront
        · refine ih back.length ?_ hback rfl
          rw [← hn, List.length_append, List.length_cons]
          omega
      · rw [List.splitOn_eq_singleton hdot, List.mem_singleton] at hpiece
        rwa [hpiece]

theorem scopeOf_self (moduleName : String) : ScopeOf moduleName moduleName := .inl rfl

theorem length_le_of_scopeOf (hscope : ScopeOf scope moduleName) :
    scope.length ≤ moduleName.length := by
  rw [← String.length_toList, ← String.length_toList]
  exact hscope.isPrefix.length_le

/-- A module that is a scope itself has the namespace of it. -/
theorem ofLongestPrefix_self (hvalue : table.entries.get? moduleName = some value) :
    OfLongestPrefix table moduleName value :=
  ⟨moduleName, scopeOf_self moduleName, hvalue, fun _ hother _ => length_le_of_scopeOf hother⟩

/-! ## One module, every table -/

def single (scope value : String) (hvalue : value ≠ "") : NamespaceTable where
  entries := (∅ : Dict String String).set scope value
  nonempty other := by
    rw [Dict.get?_set]
    split <;> simp [hvalue]

theorem get?_single (scope other value : String) (hvalue : value ≠ "") :
    (single scope value hvalue).entries.get? other =
      if other = scope then some value else none := by
  rw [single, Dict.get?_set]
  rfl

theorem not_agree_single (value : String) (hvalue : value ≠ "") (hscope : ScopeOf scope moduleName)
    (hpiece : ∀ piece ∈ moduleName.toList.splitOn '.', String.ofList piece ≠ scope) :
    ¬Agree (single scope value hvalue) moduleName := by
  rw [agree_iff]
  intro hagree
  have hprefix : OfLongestPrefix (single scope value hvalue) moduleName value := by
    refine ⟨scope, hscope, by rw [get?_single, if_pos rfl], fun other _ hsome => ?_⟩
    rw [get?_single] at hsome
    split at hsome <;> rename_i heq
    · rw [heq]
    · cases hsome
  obtain ⟨front, piece, back, hpieces, hget, -⟩ := (hagree value).mpr hprefix
  rw [get?_single, if_neg (hpiece piece (by rw [hpieces]; simp))] at hget
  cases hget

theorem forall_table_agree_iff (moduleName : String) :
    (∀ table, Agree table moduleName) ↔ moduleName = "" := by
  constructor
  · intro hagree
    by_contra hne
    by_cases hdot : '.' ∈ moduleName.toList
    · refine not_agree_single "x" (by decide) (scopeOf_self moduleName)
        (fun piece hpiece heq => not_mem_piece hpiece ?_) (hagree _)
      rwa [← String.toList_ofList (l := piece), heq]
    · refine not_agree_single "x" (by decide) (.inr (.inl rfl))
        (fun piece hpiece heq => hne ?_) (hagree _)
      rw [List.splitOn_eq_singleton hdot, List.mem_singleton] at hpiece
      rwa [hpiece, String.ofList_toList] at heq
  · rintro rfl table
    rw [agree_iff]
    intro value
    rw [ofLastPiece_iff_of_not_mem (by decide)]
    constructor
    · exact ofLongestPrefix_self
    · rintro ⟨scope, hscope, hvalue, -⟩
      have hempty : scope = "" := by
        have hlength := length_le_of_scopeOf hscope
        exact String.length_eq_zero_iff.mp (Nat.le_zero.mp hlength)
      rwa [hempty] at hvalue

/-! ## One table, every module -/

/-- A name without dots that is longer than every scope. -/
theorem exists_fresh (entries : Dict String String) :
    ∃ fresh : String, '.' ∉ fresh.toList ∧
      ∀ scope, (entries.get? scope).isSome → scope.length < fresh.length := by
  let size := (entries.keys.map String.length).foldr max 0 + 1
  have hfresh : (String.ofList (.replicate size 'm')).toList = .replicate size 'm' :=
    String.toList_ofList
  refine ⟨.ofList (.replicate size 'm'), ?_, fun scope hscope => ?_⟩
  · rw [hfresh]
    exact fun hmem => absurd (List.eq_of_mem_replicate hmem) (by decide)
  · have hmem : scope.length ∈ entries.keys.map String.length :=
      List.mem_map_of_mem ((entries.mem_keys_iff scope).mpr (Option.isSome_iff_exists.mp hscope))
    rw [← String.length_toList (s := String.ofList _), hfresh, List.length_replicate]
    exact Nat.lt_succ_of_le (List.le_max_of_le' 0 hmem le_rfl)

/-- A prefix that ends at a dot reaches as far as one without dots. -/
theorem length_le_of_append_dot {front back scope rest : List Char} (hdot : '.' ∉ front)
    (heq : front ++ '.' :: back = scope ++ '.' :: rest) : front.length ≤ scope.length := by
  obtain ⟨middle, rfl, -⟩ | ⟨middle, rfl, hmiddle⟩ := List.append_eq_append_iff.mp heq
  · rw [List.length_append]
    exact Nat.le_add_right _ _
  · cases middle with
    | nil => rw [List.append_nil]
    | cons first middle =>
        obtain ⟨rfl, -⟩ := List.cons.inj hmiddle
        exact absurd (by simp) hdot

/-- Only the Python walk asks for the empty scope. -/
theorem get?_empty_of_agree {fresh : String} (hdot : '.' ∉ fresh.toList)
    (habsent : table.entries.get? fresh = none) (hagree : Agree table fresh) :
    table.entries.get? "" = none := by
  rw [agree_iff] at hagree
  by_contra hsome
  obtain ⟨value, hvalue⟩ := Option.ne_none_iff_exists'.mp hsome
  have hprefix : OfLongestPrefix table fresh value := by
    refine ⟨"", .inr (.inl rfl), hvalue, ?_⟩
    rintro other (rfl | rfl | ⟨rest, hrest⟩) hother
    · rw [habsent] at hother
      cases hother
    · exact le_rfl
    · exact absurd (by rw [hrest]; simp) hdot
  have hpiece := (hagree value).mpr hprefix
  rw [ofLastPiece_iff_of_not_mem hdot, habsent] at hpiece
  cases hpiece

/-- Only the C++ walk finds a scope behind a package that is none. -/
theorem get?_piece_of_agree {fresh : String} {piece : List Char} (hdot : '.' ∉ fresh.toList)
    (hpiece : '.' ∉ piece)
    (habsent : ∀ scope, fresh.length ≤ scope.length → table.entries.get? scope = none)
    (hempty : table.entries.get? "" = none)
    (hagree : Agree table (.ofList (fresh.toList ++ '.' :: piece))) :
    table.entries.get? (.ofList piece) = none := by
  rw [agree_iff] at hagree
  by_contra hsome
  obtain ⟨value, hvalue⟩ := Option.ne_none_iff_exists'.mp hsome
  have hlast : OfLastPiece table (.ofList (fresh.toList ++ '.' :: piece)) value := by
    refine ⟨[fresh.toList], piece, [], ?_, hvalue, nofun⟩
    rw [String.toList_ofList, List.splitOn_append_cons_self_of_not_mem hdot,
      List.splitOn_eq_singleton hpiece]
    rfl
  obtain ⟨scope, hscope, hget, -⟩ := (hagree value).mp hlast
  have hnone : table.entries.get? scope = none := by
    rcases hscope with rfl | rfl | ⟨rest, hrest⟩
    · apply habsent
      rw [← String.length_toList, ← String.length_toList (s := String.ofList _),
        String.toList_ofList, List.length_append]
      exact Nat.le_add_right _ _
    · exact hempty
    · apply habsent
      rw [String.toList_ofList] at hrest
      rw [← String.length_toList, ← String.length_toList]
      exact length_le_of_append_dot hdot hrest
  rw [hnone] at hget
  cases hget

theorem forall_module_agree_iff (table : NamespaceTable) :
    (∀ moduleName, Agree table moduleName) ↔ table.entries = ∅ := by
  constructor
  · intro hagree
    obtain ⟨fresh, hdot, hlonger⟩ := exists_fresh table.entries
    have habsent : ∀ scope, fresh.length ≤ scope.length → table.entries.get? scope = none := by
      intro scope hle
      by_contra hsome
      exact absurd (hlonger scope (Option.isSome_iff_ne_none.mpr hsome)) (Nat.not_lt.mpr hle)
    have hempty := get?_empty_of_agree hdot (habsent fresh le_rfl) (hagree fresh)
    have hnone : ∀ scope, table.entries.get? scope = none := by
      intro scope
      by_contra hsome
      obtain ⟨value, hvalue⟩ := Option.ne_none_iff_exists'.mp hsome
      -- the C++ walk answers for the module of this name only by one of its pieces
      obtain ⟨front, piece, back, hpieces, hpiece, -⟩ :=
        (agree_iff.mp (hagree scope) value).mpr (ofLongestPrefix_self hvalue)
      have hnodot : '.' ∉ piece := not_mem_piece (s := scope.toList) (by rw [hpieces]; simp)
      rw [get?_piece_of_agree hdot hnodot habsent hempty (hagree _)] at hpiece
      cases hpiece
    apply Dict.eq_empty_of_isEmpty
    rw [Dict.isEmpty, List.isEmpty_iff, List.eq_nil_iff_forall_not_mem]
    rintro ⟨scope, value⟩ hmem
    rw [Dict.mem_entries_iff, hnone] at hmem
    cases hmem
  · intro hempty moduleName
    have hnone : ∀ scope, table.entries.get? scope = none := fun scope => by rw [hempty]; rfl
    rw [agree_iff]
    intro value
    constructor
    · rintro ⟨_, _, _, -, hvalue, -⟩
      rw [hnone] at hvalue
      cases hvalue
    · rintro ⟨_, -, hvalue, -⟩
      rw [hnone] at hvalue
      cases hvalue

/-- The registers agree on a module just if the last of its pieces that is a scope has the
namespace of its longest prefix that is one; for every table only on the empty name, and for
every name only under the empty table. -/
theorem getNamespace_agrees (table : NamespaceTable) (moduleName : String) :
    (Agree table moduleName ↔
      ∀ value, OfLastPiece table moduleName value ↔ OfLongestPrefix table moduleName value) ∧
    ((∀ table, Agree table moduleName) ↔ moduleName = "") ∧
    ((∀ moduleName, Agree table moduleName) ↔ table.entries = ∅) :=
  ⟨agree_iff, forall_table_agree_iff moduleName, forall_module_agree_iff table⟩

/-- The scope `a.b` is not found for the module of that name. -/
theorem dotted_scope_not_found :
    getNamespace (single "a.b" "outer" (by decide)).entries "a.b" = "" ∧
      Names.getNamespace (single "a.b" "outer" (by decide)).entries "a.b" = "outer" ∧
        ¬∀ table moduleName, Agree table moduleName := by
  have hcpp : getNamespace (single "a.b" "outer" (by decide)).entries "a.b" = "" := by
    rw [getNamespace, moduleParents_eq]
    decide
  have hpython : Names.getNamespace (single "a.b" "outer" (by decide)).entries "a.b" = "outer" := by
    decide
  refine ⟨hcpp, hpython, fun hagree => ?_⟩
  have hsame := hagree (single "a.b" "outer" (by decide)) "a.b"
  rw [Agree, hcpp, hpython] at hsame
  exact absurd hsame (by decide)

end Trun.Sub
