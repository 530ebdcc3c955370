import Mathlib.Data.Int.Notation
import Trun.Python.Dict

/-!
# Frozen values and their JSON

`recursively_freeze` makes tuples of lists and frozen dictionaries of
dictionaries, the encoder takes both for what they were, and the hook of the
decoder freezes the dictionaries but not the lists.  All of them rebuild a value
from the JSON that the encoder sees.
-/

namespace Trun

/-- A `str`, by its code points. -/
abbrev PyStr := List (Fin 1114112)

/-- A JSON document, with the pairs of an object in their order. -/
inductive JsonValue (F : Type) where
  | null
  | bool (b : Bool)
  | int (n : ℤ)
  | float (x : F)
  | str (s : PyStr)
  | array (items : List (JsonValue F))
  | object (pairs : List (PyStr × JsonValue F))

/-- A Python value made of JSON values, given by its items where it is a dictionary. -/
inductive PyValue (F : Type) where
  | none
  | bool (b : Bool)
  | int (n : ℤ)
  | float (x : F)
  | str (s : PyStr)
  | list (items : List (PyValue F))
  | tuple (items : List (PyValue F))
  | dict (entries : List (PyStr × PyValue F))
  /-- A `FrozenOrderedDict`. -/
  | frozen (entries : List (PyStr × PyValue F))

/-- The items of `OrderedDict(pairs)`. -/
def orderedDict {ν : Type} (pairs : List (PyStr × ν)) : List (PyStr × ν) :=
  (pairs.foldl (fun dict pair => dict.set pair.1 pair.2) (∅ : Dict PyStr ν)).entries

theorem foldl_set_entries {ν : Type} (dict : Dict PyStr ν) {pairs : List (PyStr × ν)}
    (hnodup : (dict.entries.map Prod.fst ++ pairs.map Prod.fst).Nodup) :
    (pairs.foldl (fun dict pair => dict.set pair.1 pair.2) dict).entries =
      dict.entries ++ pairs := by
  induction pairs generalizing dict with
  | nil => exact (List.append_nil _).symm
  | cons pair rest ih =>
      have hnew : dict.get? pair.1 = none := by
        rw [List.map_cons, List.nodup_append] at hnodup
        cases hget : dict.get? pair.1 with
        | none => rfl
        | some value =>
            have hmem : pair.1 ∈ dict.keys := (dict.mem_keys_iff pair.1).mpr ⟨value, hget⟩
            exact absurd rfl (hnodup.2.2 _ hmem _ (List.mem_cons_self ..))
      have hentries := Dict.entries_set_new pair.2 hnew
      rw [List.foldl_cons, ih, hentries, List.append_assoc, List.singleton_append]
      rw [hentries]
      simpa using hnodup

theorem orderedDict_of_nodup {ν : Type} {pairs : List (PyStr × ν)}
    (hnodup : (pairs.map Prod.fst).Nodup) : orderedDict pairs = pairs :=
  foldl_set_entries ∅ hnodup

theorem mem_foldl_set {ν : Type} {pairs : List (PyStr × ν)} {dict : Dict PyStr ν}
    {entry : PyStr × ν}
    (hentry : entry ∈ (pairs.foldl (fun dict pair => dict.set pair.1 pair.2) dict).entries) :
    entry ∈ dict.entries ∨ entry ∈ pairs := by
  induction pairs generalizing dict with
  | nil => exact .inl hentry
  | cons pair rest ih =>
      rw [List.foldl_cons] at hentry
      rcases ih hentry with hset | hrest
      · rw [Dict.mem_entries_iff, Dict.get?_set] at hset
        split_ifs at hset with hkey
        · exact .inr (List.mem_cons.mpr (.inl (Prod.ext hkey (Option.some.inj hset).symm)))
        · exact .inl ((dict.mem_entries_iff entry.1 entry.2).mpr hset)
      · exact .inr (List.mem_cons_of_mem _ hrest)

theorem mem_of_mem_orderedDict {ν : Type} {pairs : List (PyStr × ν)} {entry : PyStr × ν}
    (hentry : entry ∈ orderedDict pairs) : entry ∈ pairs := by
  rcases mem_foldl_set hentry with hempty | hpairs
  · cases hempty
  · exact hpairs

theorem nodup_orderedDict {ν : Type} (pairs : List (PyStr × ν)) :
    ((orderedDict pairs).map Prod.fst).Nodup :=
  Dict.nodup_keys _

/-- No object has a key twice. -/
inductive JsonValue.Distinct {F : Type} : JsonValue F → Prop where
  | null : Distinct .null
  | bool (b : Bool) : Distinct (.bool b)
  | int (n : ℤ) : Distinct (.int n)
  | float (x : F) : Distinct (.float x)
  | str (s : PyStr) : Distinct (.str s)
  | array {items : List (JsonValue F)} (hitems : ∀ item ∈ items, Distinct item) :
      Distinct (.array items)
  | object {pairs : List (PyStr × JsonValue F)} (hnodup : (pairs.map Prod.fst).Nodup)
      (hpairs : ∀ pair ∈ pairs, Distinct pair.2) : Distinct (.object pairs)

namespace Freezing

variable {F : Type}

mutual

/-- The walk of `recursively_freeze` and `recursively_unfreeze`. -/
def walk (seq : List (PyValue F) → PyValue F) (map : List (PyStr × PyValue F) → PyValue F)
    (value : PyValue F) : PyValue F :=
  match value with
  | .dict entries => map (walkEntries seq map entries)
  | .frozen entries => map (walkEntries seq map entries)
  | .list items => seq (walkAll seq map items)
  | .tuple items => seq (walkAll seq map items)
  | value => value

def walkAll (seq : List (PyValue F) → PyValue F) (map : List (PyStr × PyValue F) → PyValue F)
    (items : List (PyValue F)) : List (PyValue F) :=
  match items with
  | [] => []
  | v :: rest => walk seq map v :: walkAll seq map rest

def walkEntries (seq : List (PyValue F) → PyValue F)
    (map : List (PyStr × PyValue F) → PyValue F) (entries : List (PyStr × PyValue F)) :
    List (PyStr × PyValue F) :=
  match entries with
  | [] => []
  | (k, v) :: rest => (k, walk seq map v) :: walkEntries seq map rest

end

def frozenOrderedDict (pairs : List (PyStr × PyValue F)) : PyValue F :=
  .frozen (orderedDict pairs)

/-- `dict(pairs)`. -/
def pyDict (pairs : List (PyStr × PyValue F)) : PyValue F := .dict (orderedDict pairs)

def recursivelyFreeze (value : PyValue F) : PyValue F := walk .tuple frozenOrderedDict value

def recursivelyUnfreeze (value : PyValue F) : PyValue F := walk .list pyDict value

mutual

/-- The document that `json.dumps` writes with `_DictParamEncoder`, which gives the dictionary
in a frozen one. -/
def encode : PyValue F → JsonValue F
  | .none => .null
  | .bool b => .bool b
  | .int n => .int n
  | .float x => .float x
  | .str s => .str s
  | .list items => .array (encodeAll items)
  | .tuple items => .array (encodeAll items)
  | .dict entries => .object (encodeEntries entries)
  | .frozen entries => .object (encodeEntries entries)

def encodeAll : List (PyValue F) → List (JsonValue F)
  | [] => []
  | v :: rest => encode v :: encodeAll rest

def encodeEntries : List (PyStr × PyValue F) → List (PyStr × JsonValue F)
  | [] => []
  | (k, v) :: rest => (k, encode v) :: encodeEntries rest

end

mutual

/-- A document as Python reads it, with constructors for its arrays and its objects. -/
def decode (seq : List (PyValue F) → PyValue F) (map : List (PyStr × PyValue F) → PyValue F)
    (json : JsonValue F) : PyValue F :=
  match json with
  | .null => .none
  | .bool b => .bool b
  | .int n => .int n
  | .float x => .float x
  | .str s => .str s
  | .array items => seq (decodeAll seq map items)
  | .object pairs => map (decodePairs seq map pairs)

def decodeAll (seq : List (PyValue F) → PyValue F) (map : List (PyStr × PyValue F) → PyValue F)
    (items : List (JsonValue F)) : List (PyValue F) :=
  match items with
  | [] => []
  | item :: rest => decode seq map item :: decodeAll seq map rest

def decodePairs (seq : List (PyValue F) → PyValue F)
    (map : List (PyStr × PyValue F) → PyValue F) (pairs : List (PyStr × JsonValue F)) :
    List (PyStr × PyValue F) :=
  match pairs with
  | [] => []
  | (k, item) :: rest => (k, decode seq map item) :: decodePairs seq map rest

end

/-- `object_pairs_hook=FrozenOrderedDict`. -/
def hooked (json : JsonValue F) : PyValue F := decode .list frozenOrderedDict json

example : recursivelyFreeze (.list [.int 1, .dict [([107], .list [.none])]] : PyValue ℕ) =
    .tuple [.int 1, .frozen [([107], .tuple [.none])]] := by rfl

/-! ## Walks over items -/

section Maps

variable (seq : List (PyValue F) → PyValue F) (map : List (PyStr × PyValue F) → PyValue F)

@[simp] theorem encodeAll_eq (items : List (PyValue F)) : encodeAll items = items.map encode := by
  induction items with
  | nil => rfl
  | cons v rest ih => rw [encodeAll, ih, List.map_cons]

@[simp] theorem encodeEntries_eq (entries : List (PyStr × PyValue F)) :
    encodeEntries entries = entries.map (Prod.map id encode) := by
  induction entries with
  | nil => rfl
  | cons entry rest ih => rw [encodeEntries, ih, List.map_cons, Prod.map, id]

@[simp] theorem decodeAll_eq (items : List (JsonValue F)) :
    decodeAll seq map items = items.map (decode seq map) := by
  induction items with
  | nil => rfl
  | cons item rest ih => rw [decodeAll, ih, List.map_cons]

@[simp] theorem decodePairs_eq (pairs : List (PyStr × JsonValue F)) :
    decodePairs seq map pairs = pairs.map (Prod.map id (decode seq map)) := by
  induction pairs with
  | nil => rfl
  | cons pair rest ih => rw [decodePairs, ih, List.map_cons, Prod.map, id]

end Maps

mutual

/-- A walk sees of a value what the encoder sees. -/
theorem walk_eq (seq : List (PyValue F) → PyValue F) (map : List (PyStr × PyValue F) → PyValue F)
    (value : PyValue F) : walk seq map value = decode seq map (encode value) := by
  cases value with
  | none => rfl
  | bool b => rfl
  | int n => rfl
  | float x => rfl
  | str s => rfl
  | list items => exact congrArg seq (walkAll_eq seq map items)
  | tuple items => exact congrArg seq (walkAll_eq seq map items)
  | dict entries => exact congrArg map (walkEntries_eq seq map entries)
  | frozen entries => exact congrArg map (walkEntries_eq seq map entries)

theorem walkAll_eq (seq : List (PyValue F) → PyValue F)
    (map : List (PyStr × PyValue F) → PyValue F) (items : List (PyValue F)) :
    walkAll seq map items = decodeAll seq map (encodeAll items) := by
  cases items with
  | nil => rfl
  | cons v rest =>
      rw [walkAll, encodeAll, decodeAll, walk_eq seq map v, walkAll_eq seq map rest]

theorem walkEntries_eq (seq : List (PyValue F) → PyValue F)
    (map : List (PyStr × PyValue F) → PyValue F) (entries : List (PyStr × PyValue F)) :
    walkEntries seq map entries = decodePairs seq map (encodeEntries entries) := by
  cases entries with
  | nil => rfl
  | cons entry rest =>
      rw [walkEntries, encodeEntries, decodePairs, walk_eq seq map entry.2,
        walkEntries_eq seq map rest]

end

/-! ## Documents with distinct keys -/

/-- Induction over a document, with all items of an array and all values of an object at once. -/
theorem items_induction {motive : JsonValue F → Prop} (null : motive .null)
    (bool : ∀ b, motive (.bool b)) (int : ∀ n, motive (.int n)) (float : ∀ x, motive (.float x))
    (str : ∀ s, motive (.str s))
    (array : ∀ items, (∀ item ∈ items, motive item) → motive (.array items))
    (object : ∀ pairs, (∀ pair ∈ pairs, motive pair.2) → motive (.object pairs))
    (json : JsonValue F) : motive json :=
  @JsonValue.rec F motive (fun items => ∀ item ∈ items, motive item)
    (fun pairs => ∀ pair ∈ pairs, motive pair.2) (fun pair => motive pair.2)
    null bool int float str array object (List.forall_mem_nil _)
    (fun _ _ hitem hrest => List.forall_mem_cons.mpr ⟨hitem, hrest⟩) (List.forall_mem_nil _)
    (fun _ _ hpair hrest => List.forall_mem_cons.mpr ⟨hpair, hrest⟩) (fun _ _ hitem => hitem) json

/-- No dictionary has a key twice, which holds of all that Python can build. -/
def PyDistinct (value : PyValue F) : Prop := (encode value).Distinct

/-- Constructors whose values the encoder writes as arrays and objects. -/
structure Rebuilds (seq : List (PyValue F) → PyValue F)
    (map : List (PyStr × PyValue F) → PyValue F) : Prop where
  array : ∀ items, encode (seq items) = .array (items.map encode)
  object : ∀ pairs, encode (map pairs) = .object ((orderedDict pairs).map (Prod.map id encode))

theorem rebuilds_tuple : Rebuilds (F := F) .tuple frozenOrderedDict where
  array items := congrArg JsonValue.array (encodeAll_eq items)
  object _ := congrArg JsonValue.object (encodeEntries_eq _)

theorem rebuilds_list : Rebuilds (F := F) .list pyDict where
  array items := congrArg JsonValue.array (encodeAll_eq items)
  object _ := congrArg JsonValue.object (encodeEntries_eq _)

theorem rebuilds_hooked : Rebuilds (F := F) .list frozenOrderedDict where
  array items := congrArg JsonValue.array (encodeAll_eq items)
  object _ := congrArg JsonValue.object (encodeEntries_eq _)

theorem encode_decode {seq : List (PyValue F) → PyValue F}
    {map : List (PyStr × PyValue F) → PyValue F} (hrebuilds : Rebuilds seq map)
    {json : JsonValue F} (hdistinct : json.Distinct) : encode (decode seq map json) = json := by
  induction hdistinct with
  | null => rfl
  | bool b => rfl
  | int n => rfl
  | float x => rfl
  | str s => rfl
  | array _ ih =>
      rw [decode, hrebuilds.array, decodeAll_eq, List.map_map]
      exact congrArg JsonValue.array ((List.map_congr_left ih).trans (List.map_id _))
  | @object pairs hnodup _ ih =>
      have hkeys : ((pairs.map (Prod.map id (decode seq map))).map Prod.fst).Nodup := by
        rwa [List.map_map]
      rw [decode, decodePairs_eq, hrebuilds.object, orderedDict_of_nodup hkeys, List.map_map]
      apply congrArg JsonValue.object
      apply (List.map_congr_left _).trans (List.map_id _)
      intro pair hpair
      exact Prod.ext rfl (ih pair hpair)

/-- What is built of a document has no key twice, whether or not the document has one. -/
theorem distinct_decode {seq : List (PyValue F) → PyValue F}
    {map : List (PyStr × PyValue F) → PyValue F} (hrebuilds : Rebuilds seq map)
    (json : JsonValue F) : PyDistinct (decode seq map json) := by
  induction json using items_induction with
  | null => exact .null
  | bool b => exact .bool b
  | int n => exact .int n
  | float x => exact .float x
  | str s => exact .str s
  | array items ih =>
      rw [PyDistinct, decode, hrebuilds.array, decodeAll_eq, List.map_map]
      exact .array (List.forall_mem_map.mpr ih)
  | object pairs ih =>
      rw [PyDistinct, decode, hrebuilds.object, decodePairs_eq]
      apply JsonValue.Distinct.object
      · rw [List.map_map]
        exact nodup_orderedDict _
      · intro pair hpair
        obtain ⟨entry, hentry, rfl⟩ := List.mem_map.mp hpair
        obtain ⟨source, hsource, rfl⟩ := List.mem_map.mp (mem_of_mem_orderedDict hentry)
        exact ih source hsource

/-! ## Freezing and its way back -/

theorem recursivelyFreeze_congr {v w : PyValue F} (heq : encode v = encode w) :
    recursivelyFreeze v = recursivelyFreeze w := by
  rw [recursivelyFreeze, recursivelyFreeze, walk_eq, walk_eq, heq]

theorem recursivelyUnfreeze_congr {v w : PyValue F} (heq : encode v = encode w) :
    recursivelyUnfreeze v = recursivelyUnfreeze w := by
  rw [recursivelyUnfreeze, recursivelyUnfreeze, walk_eq, walk_eq, heq]

theorem encode_recursivelyFreeze {v : PyValue F} (hdistinct : PyDistinct v) :
    encode (recursivelyFreeze v) = encode v := by
  rw [recursivelyFreeze, walk_eq]
  exact encode_decode rebuilds_tuple hdistinct

theorem encode_recursivelyUnfreeze {v : PyValue F} (hdistinct : PyDistinct v) :
    encode (recursivelyUnfreeze v) = encode v := by
  rw [recursivelyUnfreeze, walk_eq]
  exact encode_decode rebuilds_list hdistinct

theorem encode_hooked {json : JsonValue F} (hdistinct : json.Distinct) :
    encode (hooked json) = json :=
  encode_decode rebuilds_hooked hdistinct

end Freezing

end Trun
