import Mathlib.Data.List.Nodup
import Mathlib.Data.List.Lookmap

/-!
# Insertion-ordered dictionaries

A Python `dict` iterates in insertion order: writing an existing key keeps its
place, a new key goes to the end, and a popped key loses its place.  `Dict`
keeps the entries in that order together with the proof that no key occurs
twice, so every operation below is one on well-formed dictionaries.
-/

namespace Trun

universe u v w

/-- A dictionary in insertion order. -/
structure Dict (κ : Type u) (ν : Type v) where
  entries : List (κ × ν)
  nodup_keys : (entries.map Prod.fst).Nodup
  deriving DecidableEq

namespace Dict

variable {κ : Type u} {ν : Type v}

/-- The dictionary without entries. -/
def empty : Dict κ ν := ⟨[], List.nodup_nil⟩

instance : EmptyCollection (Dict κ ν) := ⟨empty⟩
instance : Inhabited (Dict κ ν) := ⟨∅⟩

def keys (dict : Dict κ ν) : List κ := dict.entries.map Prod.fst
def values (dict : Dict κ ν) : List ν := dict.entries.map Prod.snd
def size (dict : Dict κ ν) : ℕ := dict.entries.length

/-- Python's truth value of a dictionary. -/
def isEmpty (dict : Dict κ ν) : Bool := dict.entries.isEmpty

@[simp] theorem entries_empty : (∅ : Dict κ ν).entries = [] := rfl
@[simp] theorem values_empty : (∅ : Dict κ ν).values = [] := rfl

theorem eq_empty_of_isEmpty {dict : Dict κ ν} (hempty : dict.isEmpty = true) :
    dict = ∅ := by
  cases dict with
  | mk entries _ =>
      cases entries with
      | nil => rfl
      | cons _ _ => simp [isEmpty] at hempty

variable [DecidableEq κ]

def get? (dict : Dict κ ν) (key : κ) : Option ν := dict.entries.lookup key

/-- `dict.get(key, default)`, and `dict[key]` of a `defaultdict`. -/
def getD (dict : Dict κ ν) (key : κ) (default : ν) : ν :=
  (dict.get? key).getD default

/-- `key in dict`. -/
def contains (dict : Dict κ ν) (key : κ) : Bool := (dict.get? key).isSome

/-- The entries of `dict[key] = value`. -/
private def writeEntries (key : κ) (value : ν) :
    List (κ × ν) → List (κ × ν)
  | [] => [(key, value)]
  | entry :: rest =>
      if entry.1 = key then (key, value) :: rest
      else entry :: writeEntries key value rest

private theorem mem_keys_writeEntries (key : κ) (value : ν)
    (entries : List (κ × ν)) (other : κ) :
    other ∈ (writeEntries key value entries).map Prod.fst ↔
      other = key ∨ other ∈ entries.map Prod.fst := by
  induction entries with
  | nil => simp [writeEntries]
  | cons entry rest ih =>
      by_cases hkey : entry.1 = key
      · simp [writeEntries, hkey]
      · simp only [writeEntries, hkey, if_false, List.map_cons, List.mem_cons, ih]
        tauto

private theorem nodup_writeEntries (key : κ) (value : ν)
    {entries : List (κ × ν)} (hnodup : (entries.map Prod.fst).Nodup) :
    ((writeEntries key value entries).map Prod.fst).Nodup := by
  induction entries with
  | nil => simp [writeEntries]
  | cons entry rest ih =>
      simp only [List.map_cons, List.nodup_cons] at hnodup
      by_cases hkey : entry.1 = key
      · subst hkey
        simpa [writeEntries] using hnodup
      · simp only [writeEntries, hkey, if_false, List.map_cons, List.nodup_cons,
          mem_keys_writeEntries]
        exact ⟨by simpa [hkey] using hnodup.1, ih hnodup.2⟩

/-- `dict[key] = value`. -/
def set (dict : Dict κ ν) (key : κ) (value : ν) : Dict κ ν :=
  ⟨writeEntries key value dict.entries, nodup_writeEntries key value dict.nodup_keys⟩

/-- `dict.pop(key, None)`: the dictionary without the key. -/
def erase (dict : Dict κ ν) (key : κ) : Dict κ ν where
  entries := dict.entries.filter fun entry => entry.1 ≠ key
  nodup_keys := dict.nodup_keys.sublist (List.filter_sublist.map _)

/-- Update the value of a key, starting from `default` where it is absent. -/
def modify (dict : Dict κ ν) (key : κ) (default : ν) (change : ν → ν) : Dict κ ν :=
  dict.set key (change (dict.getD key default))

def update (dict other : Dict κ ν) : Dict κ ν :=
  other.entries.foldl (fun current entry => current.set entry.1 entry.2) dict

/-- The same keys with other values. -/
def mapValues {μ : Type w} (dict : Dict κ ν) (change : κ → ν → μ) : Dict κ μ where
  entries := dict.entries.map fun entry => (entry.1, change entry.1 entry.2)
  nodup_keys := by
    rw [List.map_map]
    exact dict.nodup_keys

/-- `dict == other`: the same keys with the same values, in whatever order. -/
def sameItems [DecidableEq ν] (dict other : Dict κ ν) : Bool :=
  dict.size == other.size &&
    dict.entries.all fun entry => other.get? entry.1 == some entry.2

/-! ## Lookup after each operation -/

@[simp] theorem get?_empty (key : κ) : (∅ : Dict κ ν).get? key = none := rfl
@[simp] theorem getD_empty (key : κ) (default : ν) :
    (∅ : Dict κ ν).getD key default = default := rfl

private theorem lookup_cons_eq (entry : κ × ν) (rest : List (κ × ν)) (key : κ) :
    (entry :: rest).lookup key =
      if key = entry.1 then some entry.2 else rest.lookup key := by
  obtain ⟨own, value⟩ := entry
  rw [List.lookup_cons]
  by_cases hkey : key = own
  · simp [hkey]
  · simp [hkey, beq_false_of_ne hkey]

private theorem lookup_writeEntries (key : κ) (value : ν)
    (entries : List (κ × ν)) (other : κ) :
    (writeEntries key value entries).lookup other =
      if other = key then some value else entries.lookup other := by
  induction entries with
  | nil => simp [writeEntries, lookup_cons_eq]
  | cons entry rest ih =>
      by_cases hkey : entry.1 = key
      · simp only [writeEntries, hkey, if_true, lookup_cons_eq]
        split <;> rfl
      · simp only [writeEntries, hkey, if_false, lookup_cons_eq, ih]
        by_cases hentry : other = entry.1
        · simp [hentry, hkey]
        · simp [hentry]

@[simp] theorem get?_set (dict : Dict κ ν) (key : κ) (value : ν) (other : κ) :
    (dict.set key value).get? other =
      if other = key then some value else dict.get? other :=
  lookup_writeEntries key value dict.entries other

private theorem lookup_filter_ne (key : κ) (entries : List (κ × ν)) (other : κ) :
    (entries.filter fun entry => entry.1 ≠ key).lookup other =
      if other = key then none else entries.lookup other := by
  induction entries with
  | nil => simp
  | cons entry rest ih =>
      by_cases hkey : entry.1 = key
      · rw [List.filter_cons_of_neg (by simpa using hkey), ih, lookup_cons_eq, hkey]
        split <;> rfl
      · rw [List.filter_cons_of_pos (by simpa using hkey), lookup_cons_eq, ih,
          lookup_cons_eq]
        by_cases hentry : other = entry.1
        · simp [hentry, hkey]
        · simp [hentry]

@[simp] theorem get?_erase (dict : Dict κ ν) (key other : κ) :
    (dict.erase key).get? other = if other = key then none else dict.get? other :=
  lookup_filter_ne key dict.entries other

@[simp] theorem getD_set (dict : Dict κ ν) (key : κ) (value : ν) (other : κ)
    (default : ν) :
    (dict.set key value).getD other default =
      if other = key then value else dict.getD other default := by
  by_cases hother : other = key <;> simp [getD, hother]

@[simp] theorem getD_modify (dict : Dict κ ν) (key : κ) (default : ν)
    (change : ν → ν) (other : κ) :
    (dict.modify key default change).getD other default =
      if other = key then change (dict.getD other default)
      else dict.getD other default := by
  by_cases hother : other = key <;> simp [modify, hother]

private theorem writeEntries_eq_self {key : κ} {value : ν} {entries : List (κ × ν)}
    (hlookup : entries.lookup key = some value) : writeEntries key value entries = entries := by
  induction entries with
  | nil => simp at hlookup
  | cons entry rest ih =>
      rw [lookup_cons_eq] at hlookup
      by_cases hkey : entry.1 = key
      · have hvalue : entry.2 = value := by simpa [hkey] using hlookup
        simp [writeEntries, ← hkey, ← hvalue]
      · have hrest : rest.lookup key = some value := by
          rwa [if_neg fun h => hkey h.symm] at hlookup
        simp only [writeEntries, hkey, if_false, ih hrest]

@[simp] theorem get?_foldl_erase (dict : Dict κ ν) (keys : List κ) (other : κ) :
    (keys.foldl erase dict).get? other = if other ∈ keys then none else dict.get? other := by
  induction keys generalizing dict with
  | nil => simp
  | cons key rest ih =>
      rw [List.foldl_cons, ih, get?_erase]
      by_cases hkey : other = key
      · simp [hkey]
      · by_cases hrest : other ∈ rest <;> simp [hkey, hrest]

@[simp] theorem get?_modify (dict : Dict κ ν) (key : κ) (default : ν) (change : ν → ν)
    (other : κ) :
    (dict.modify key default change).get? other =
      if other = key then some (change (dict.getD key default)) else dict.get? other :=
  get?_set ..

theorem get?_foldl_set (dict : Dict κ ν) (keys : List κ) (value : κ → ν) (other : κ) :
    (keys.foldl (fun current key => current.set key (value key)) dict).get? other =
      if other ∈ keys then some (value other) else dict.get? other := by
  induction keys generalizing dict with
  | nil => simp
  | cons key rest ih =>
      rw [List.foldl_cons, ih, get?_set]
      by_cases hkey : other = key
      · simp [hkey]
      · by_cases hrest : other ∈ rest <;> simp [hkey, hrest]

theorem get?_foldl_modify (dict : Dict κ ν) {keys : List κ} (hnodup : keys.Nodup) (default : ν)
    (change : κ → ν → ν) (other : κ) :
    (keys.foldl (fun current key => current.modify key default (change key)) dict).get? other =
      if other ∈ keys then some (change other (dict.getD other default))
      else dict.get? other := by
  induction keys generalizing dict with
  | nil => simp
  | cons key rest ih =>
      obtain ⟨hnew, hrest⟩ := List.nodup_cons.mp hnodup
      rw [List.foldl_cons, ih _ hrest, get?_modify, getD_modify]
      by_cases hkey : other = key
      · simp [hkey, hnew]
      · by_cases hmem : other ∈ rest <;> simp [hkey, hmem]

private theorem lookup_foldl_set {μ : Type w} (value : μ → ν) {entries : List (κ × μ)}
    (hnodup : (entries.map Prod.fst).Nodup) (dict : Dict κ ν) (key : κ) :
    (entries.foldl (fun current entry => current.set entry.1 (value entry.2)) dict).get? key =
      ((entries.lookup key).map value <|> dict.get? key) := by
  induction entries generalizing dict with
  | nil => rfl
  | cons entry rest ih =>
      rw [List.map_cons, List.nodup_cons] at hnodup
      rw [List.foldl_cons, ih hnodup.2, get?_set, lookup_cons_eq]
      by_cases hkey : key = entry.1
      · have hnone : rest.lookup key = none := by
          rw [List.lookup_eq_none_iff]
          intro other hother
          rw [bne_iff_ne]
          rintro rfl
          exact hnodup.1 (hkey ▸ List.mem_map_of_mem hother)
        rw [hnone, if_pos hkey, if_pos hkey]
        rfl
      · rw [if_neg hkey, if_neg hkey]

/-- `dict.update(other)`, with the values of `other` changed. -/
theorem get?_foldl_set_entries {μ : Type w} (dict : Dict κ ν) (other : Dict κ μ) (value : μ → ν)
    (key : κ) :
    (other.entries.foldl (fun current entry => current.set entry.1 (value entry.2)) dict).get?
      key = ((other.get? key).map value <|> dict.get? key) :=
  lookup_foldl_set value other.nodup_keys dict key

private theorem lookup_mapValues {μ : Type w} (change : κ → ν → μ) (entries : List (κ × ν))
    (key : κ) :
    (entries.map fun entry => (entry.1, change entry.1 entry.2)).lookup key =
      (entries.lookup key).map (change key) := by
  induction entries with
  | nil => rfl
  | cons entry rest ih =>
      rw [List.map_cons, lookup_cons_eq, lookup_cons_eq, ih]
      by_cases hkey : key = entry.1 <;> simp [hkey]

@[simp] theorem get?_mapValues {μ : Type w} (dict : Dict κ ν) (change : κ → ν → μ) (key : κ) :
    (dict.mapValues change).get? key = (dict.get? key).map (change key) :=
  lookup_mapValues change dict.entries key

/-- Writing the value a key already has changes nothing. -/
theorem set_eq_self {dict : Dict κ ν} {key : κ} {value : ν}
    (hget : dict.get? key = some value) : dict.set key value = dict := by
  cases dict with
  | mk entries hnodup =>
      have hentries : writeEntries key value entries = entries := writeEntries_eq_self hget
      simp only [set, hentries]

private theorem writeEntries_new {key : κ} {value : ν} {entries : List (κ × ν)}
    (hlookup : entries.lookup key = none) :
    writeEntries key value entries = entries ++ [(key, value)] := by
  induction entries with
  | nil => rfl
  | cons entry rest ih =>
      rw [lookup_cons_eq] at hlookup
      by_cases hkey : key = entry.1
      · rw [if_pos hkey] at hlookup
        cases hlookup
      · rw [if_neg hkey] at hlookup
        simp only [writeEntries, Ne.symm hkey, if_false, ih hlookup, List.cons_append]

/-- A new key comes last. -/
theorem entries_set_new {dict : Dict κ ν} {key : κ} (value : ν) (hget : dict.get? key = none) :
    (dict.set key value).entries = dict.entries ++ [(key, value)] :=
  writeEntries_new hget

theorem values_set_new {dict : Dict κ ν} {key : κ} (value : ν)
    (hget : dict.get? key = none) : (dict.set key value).values = dict.values ++ [value] := by
  rw [values, entries_set_new value hget, List.map_append]
  rfl

/-! ## Entries, keys and values as lookups -/

private theorem mem_iff_lookup {entries : List (κ × ν)}
    (hnodup : (entries.map Prod.fst).Nodup) (key : κ) (value : ν) :
    (key, value) ∈ entries ↔ entries.lookup key = some value := by
  induction entries with
  | nil => simp
  | cons entry rest ih =>
      simp only [List.map_cons, List.nodup_cons] at hnodup
      rw [List.mem_cons, lookup_cons_eq]
      by_cases hkey : key = entry.1
      · have habsent : (key, value) ∉ rest := fun hmem =>
          hnodup.1 (hkey ▸ List.mem_map_of_mem (f := Prod.fst) hmem)
        simp only [hkey, if_true, Option.some.injEq]
        rw [hkey] at habsent
        simp only [habsent, or_false, Prod.ext_iff, true_and]
        exact eq_comm
      · have hne : (key, value) ≠ entry := fun h => hkey (congrArg Prod.fst h)
        simpa [hkey, hne] using ih hnodup.2

theorem mem_entries_iff (dict : Dict κ ν) (key : κ) (value : ν) :
    (key, value) ∈ dict.entries ↔ dict.get? key = some value :=
  mem_iff_lookup dict.nodup_keys key value

/-- Two dictionaries with the same values have the same entries, if not in the same order. -/
theorem perm_entries_iff {dict other : Dict κ ν} :
    dict.entries.Perm other.entries ↔ ∀ key, dict.get? key = other.get? key := by
  have hnodup : ∀ dict : Dict κ ν, dict.entries.Nodup := fun dict => dict.nodup_keys.of_map _
  rw [List.perm_ext_iff_of_nodup (hnodup dict) (hnodup other)]
  constructor
  · intro hmem key
    apply Option.ext
    intro value
    rw [← mem_entries_iff, ← mem_entries_iff]
    exact hmem (key, value)
  · rintro hget ⟨key, value⟩
    rw [mem_entries_iff, mem_entries_iff, hget key]

theorem mem_values_iff (dict : Dict κ ν) (value : ν) :
    value ∈ dict.values ↔ ∃ key, dict.get? key = some value := by
  simp only [values, List.mem_map, Prod.exists, exists_eq_right, mem_entries_iff]

theorem mem_keys_iff (dict : Dict κ ν) (key : κ) :
    key ∈ dict.keys ↔ ∃ value, dict.get? key = some value := by
  simp only [keys, List.mem_map, Prod.exists, exists_and_right, exists_eq_right,
    mem_entries_iff]

theorem contains_iff (dict : Dict κ ν) (key : κ) :
    dict.contains key = true ↔ ∃ value, dict.get? key = some value := by
  simp [contains, Option.isSome_iff_exists]

@[simp] theorem contains_set (dict : Dict κ ν) (key : κ) (value : ν) (other : κ) :
    (dict.set key value).contains other = true ↔ other = key ∨ dict.contains other = true := by
  unfold contains
  rw [get?_set]
  by_cases hother : other = key <;> simp [hother]

@[simp] theorem contains_modify (dict : Dict κ ν) (key : κ) (default : ν) (change : ν → ν)
    (other : κ) :
    (dict.modify key default change).contains other = true ↔
      other = key ∨ dict.contains other = true :=
  contains_set dict key _ other

theorem mem_keys_iff_contains (dict : Dict κ ν) (key : κ) :
    key ∈ dict.keys ↔ dict.contains key = true := by
  rw [mem_keys_iff, contains_iff]

/-- A dictionary whose values determine their keys lists no value twice. -/
theorem nodup_values (dict : Dict κ ν)
    (hinjective : ∀ left right value, dict.get? left = some value →
      dict.get? right = some value → left = right) :
    dict.values.Nodup := by
  have hentries : dict.entries.Nodup := List.Nodup.of_map Prod.fst dict.nodup_keys
  refine (List.nodup_map_iff_inj_on hentries).mpr ?_
  rintro ⟨left, value⟩ hleft ⟨right, other⟩ hright rfl
  rw [mem_entries_iff] at hleft hright
  exact Prod.ext (hinjective left right value hleft hright) rfl

end Dict

end Trun
