import Mathlib.Data.List.Nodup
import Mathlib.Order.Basic
import Mathlib.Tactic.Push
import Trun.Python.Dict

/-!
# Validating a configuration

`Config::validate_table` goes through the tables of a configuration and those of the default one
side by side.  What it accepts is said by the paths of keys: the default configuration has each
path of the other one, with the same type.
-/

namespace Trun.Config

/-- The types of the TOML values. -/
inductive TomlType where
  | table | array | string | integer | floatingPoint | boolean | date | time | dateTime
  deriving DecidableEq

/-- A TOML value.  Only the entries of tables are looked into. -/
inductive TomlValue where
  | table (entries : List (String × TomlValue))
  | array | string | integer | floatingPoint | boolean | date | time | dateTime

namespace TomlValue

def type : TomlValue → TomlType
  | .table _ => .table
  | .array => .array
  | .string => .string
  | .integer => .integer
  | .floatingPoint => .floatingPoint
  | .boolean => .boolean
  | .date => .date
  | .time => .time
  | .dateTime => .dateTime

mutual

/-- The table and those below it have each key once. -/
def WellFormed : TomlValue → Prop
  | .table entries => (entries.map Prod.fst).Nodup ∧ EntriesWellFormed entries
  | _ => True

def EntriesWellFormed : List (String × TomlValue) → Prop
  | [] => True
  | (_, value) :: rest => value.WellFormed ∧ EntriesWellFormed rest

end

/-- What the keys of a path lead to, from table to table. -/
def at? : TomlValue → List String → Option TomlValue
  | value, [] => some value
  | .table entries, key :: path => (entries.lookup key).bind (·.at? path)
  | _, _ :: _ => none

/-- Change the entries, if it is a table. -/
def mapEntries (change : List (String × TomlValue) → List (String × TomlValue)) :
    TomlValue → TomlValue
  | .table entries => .table (change entries)
  | value => value

end TomlValue

/-- A TOML table. -/
structure TomlTable where
  entries : List (String × TomlValue)
  wellFormed : (TomlValue.table entries).WellFormed

/-- The entries without the key that the path ends in. -/
def removeKey : List String → List (String × TomlValue) → List (String × TomlValue)
  | [], entries => entries
  | [key], entries => entries.filter fun entry => entry.1 ≠ key
  | key :: path, entries => entries.map fun entry =>
      (entry.1, if entry.1 = key then entry.2.mapEntries (removeKey path) else entry.2)

theorem removeKey_cons_cons (key next : String) (path : List String)
    (entries : List (String × TomlValue)) :
    removeKey (key :: next :: path) entries = entries.map fun entry =>
      (entry.1, if entry.1 = key then entry.2.mapEntries (removeKey (next :: path))
        else entry.2) := rfl

/-- The two messages of a `ConfigProcessingException`, each with the location. -/
inductive ValidationError where
  | notFound (location : String)
  | typeMismatch (location : String)
  deriving DecidableEq

def ValidationError.location : ValidationError → String
  | .notFound location => location
  | .typeMismatch location => location

def ValidationError.what : ValidationError → String
  | .notFound location =>
      "Error processing config file Key '" ++ location ++ "' not found in default config."
  | .typeMismatch location =>
      "Error processing config file Type mismatch for key '" ++ location ++ "'."

/-- `key.data()` where it is appended to a text. -/
def keyData (key : String) : String := .ofList (key.toList.takeWhile (· ≠ '\x00'))

def newLocation (location key : String) : String :=
  if location = "" then keyData key else location ++ "." ++ keyData key

/-- The tests of the type of a value: `is_table`, `is_array` and so on. -/
def typeTests : List (TomlValue → Bool) :=
  [TomlType.table, .array, .string, .integer, .floatingPoint, .boolean, .date, .time,
    .dateTime].map fun type value => value.type = type

def typeMismatch (value defaultValue : TomlValue) : Bool :=
  typeTests.any fun is => is value != is defaultValue

mutual

/-- The loop of `validate_table`. -/
def validateEntries (defaultConfig : List (String × TomlValue)) :
    List (String × TomlValue) → String → Except ValidationError Unit
  | [], _ => .ok ()
  | (key, value) :: rest, location =>
    match defaultConfig.lookup key with
    | none => .error (.notFound (newLocation location key))
    | some defaultValue =>
      if typeMismatch value defaultValue then .error (.typeMismatch (newLocation location key))
      else
        match validateValue defaultValue value (newLocation location key) with
        | .error error => .error error
        | .ok () => validateEntries defaultConfig rest location

/-- The call for a table below. -/
def validateValue (defaultValue : TomlValue) :
    TomlValue → String → Except ValidationError Unit
  | .table entries, location =>
    match defaultValue with
    | .table defaultEntries => validateEntries defaultEntries entries location
    | _ => .ok ()
  | _, _ => .ok ()

end

def validateTable (defaultConfig config : TomlTable) (location : String) :
    Except ValidationError Unit :=
  validateEntries defaultConfig.entries config.entries location

/-! ## Values by their entries -/

namespace TomlValue

/-- Induction from the entries of a table to the table. -/
theorem induction {motive : TomlValue → Prop}
    (htable : ∀ entries : List (String × TomlValue), (∀ entry ∈ entries, motive entry.2) →
      motive (.table entries))
    (hleaf : ∀ value : TomlValue, value.type ≠ .table → motive value) (value : TomlValue) :
    motive value := by
  refine @TomlValue.rec motive (fun entries => ∀ entry ∈ entries, motive entry.2)
    (fun entry => motive entry.2) htable ?_ ?_ ?_ ?_ ?_ ?_ ?_ ?_ ?nil ?cons ?entry value
  case nil => exact fun _ h => absurd h List.not_mem_nil
  case cons => exact fun _ _ hentry hrest => List.forall_mem_cons.mpr ⟨hentry, hrest⟩
  case entry => exact fun _ _ hvalue => hvalue
  all_goals exact hleaf _ nofun

theorem eq_table_of_type {value : TomlValue} (htype : value.type = .table) :
    ∃ entries, value = .table entries := by
  cases value with
  | table entries => exact ⟨entries, rfl⟩
  | _ => cases htype

theorem entriesWellFormed_iff (entries : List (String × TomlValue)) :
    EntriesWellFormed entries ↔ ∀ entry ∈ entries, entry.2.WellFormed := by
  induction entries with
  | nil => exact iff_of_true trivial nofun
  | cons entry rest ih => rw [List.forall_mem_cons, ← ih, EntriesWellFormed]

@[simp] theorem at?_nil (value : TomlValue) : value.at? [] = some value := by
  cases value <;> rfl

@[simp] theorem at?_cons (entries : List (String × TomlValue)) (key : String)
    (path : List String) :
    (table entries).at? (key :: path) = (entries.lookup key).bind (·.at? path) := rfl

theorem at?_cons_of_type {value : TomlValue} (htype : value.type ≠ .table) (key : String)
    (path : List String) : value.at? (key :: path) = none := by
  cases value with
  | table entries => exact absurd rfl htype
  | _ => rfl

theorem at?_append (value : TomlValue) (front back : List String) :
    value.at? (front ++ back) = (value.at? front).bind (·.at? back) := by
  induction front generalizing value with
  | nil => simp
  | cons key front ih =>
      cases value with
      | table entries =>
          rw [List.cons_append, at?_cons, at?_cons, Option.bind_assoc]
          exact congrArg _ (funext fun value => ih value)
      | _ => rfl

end TomlValue

/-- In a table the entries are what is found by their keys. -/
theorem mem_iff_lookup {entries : List (String × TomlValue)}
    (hnodup : (entries.map Prod.fst).Nodup) (entry : String × TomlValue) :
    entry ∈ entries ↔ entries.lookup entry.1 = some entry.2 :=
  Dict.mem_entries_iff ⟨entries, hnodup⟩ entry.1 entry.2

/-! ## Configurations by their paths -/

/-- Each path of the value is one of the default value, with the same type. -/
def Fits (defaultValue value : TomlValue) : Prop :=
  ∀ path found, value.at? path = some found →
    ∃ expected, defaultValue.at? path = some expected ∧ expected.type = found.type

/-- The path leads through tables of both values to what the default value lacks or has with
another type. -/
structure Offends (defaultValue value : TomlValue) (path : List String) : Prop where
  exists_mismatch : ∃ found, value.at? path = some found ∧
    ∀ expected, defaultValue.at? path = some expected → expected.type ≠ found.type
  tables : ∀ front, front <+: path → front ≠ path →
    (∃ entries, value.at? front = some (.table entries)) ∧
      ∃ entries, defaultValue.at? front = some (.table entries)

namespace Fits

variable {first second third : TomlValue}

theorem refl (value : TomlValue) : Fits value value := fun _ found hfound => ⟨found, hfound, rfl⟩

theorem trans (hfirst : Fits first second) (hsecond : Fits second third) : Fits first third := by
  intro path found hfound
  obtain ⟨middle, hmiddle, htype⟩ := hsecond path found hfound
  obtain ⟨expected, hexpected, htype'⟩ := hfirst path middle hmiddle
  exact ⟨expected, hexpected, htype'.trans htype⟩

theorem type_eq (hfits : Fits first second) : first.type = second.type := by
  obtain ⟨expected, hexpected, htype⟩ := hfits [] second (TomlValue.at?_nil second)
  rw [TomlValue.at?_nil, Option.some.injEq] at hexpected
  rwa [hexpected]

end Fits

/-- What is wrong with a value is wrong at a path up to which all is well. -/
theorem fits_iff_not_offends (defaultValue value : TomlValue) :
    Fits defaultValue value ↔ ∀ path, ¬Offends defaultValue value path := by
  constructor
  · rintro hfits path ⟨⟨found, hfound, hmismatch⟩, -⟩
    obtain ⟨expected, hexpected, htype⟩ := hfits path found hfound
    exact hmismatch expected hexpected htype
  · intro hnone path
    induction hn : path.length using Nat.strongRecOn generalizing path with
    | _ n ih =>
        intro found hfound
        by_contra hmissing
        push Not at hmissing
        refine hnone path ⟨⟨found, hfound, hmissing⟩, ?_⟩
        rintro front ⟨back, rfl⟩ hne
        obtain ⟨key, back, rfl⟩ := List.exists_cons_of_ne_nil
          (show back ≠ [] by rintro rfl; exact hne (List.append_nil front).symm)
        rw [TomlValue.at?_append] at hfound
        obtain ⟨middle, hmiddle, hbelow⟩ := Option.bind_eq_some_iff.mp hfound
        have htable : middle.type = .table := by
          by_contra htype
          rw [TomlValue.at?_cons_of_type htype] at hbelow
          cases hbelow
        have hlt : front.length < n := by
          rw [← hn, List.length_append, List.length_cons]
          omega
        obtain ⟨expected, hexpected, htype⟩ := ih front.length hlt front rfl middle hmiddle
        obtain ⟨entries, rfl⟩ := TomlValue.eq_table_of_type htable
        obtain ⟨defaults, rfl⟩ := TomlValue.eq_table_of_type (htype.trans htable)
        exact ⟨⟨entries, hmiddle⟩, defaults, hexpected⟩

/-- Tables are compared entry by entry. -/
theorem fits_table_iff (defaults : List (String × TomlValue))
    {entries : List (String × TomlValue)} (hnodup : (entries.map Prod.fst).Nodup) :
    Fits (.table defaults) (.table entries) ↔ ∀ entry ∈ entries, ∃ expected,
      defaults.lookup entry.1 = some expected ∧ Fits expected entry.2 := by
  constructor
  · intro hfits entry hmem
    have hentry := (mem_iff_lookup hnodup entry).mp hmem
    obtain ⟨expected, hexpected, -⟩ := hfits [entry.1] entry.2 (by simp [hentry])
    rw [TomlValue.at?_cons] at hexpected
    obtain ⟨value, hvalue, hsame⟩ := Option.bind_eq_some_iff.mp hexpected
    refine ⟨value, hvalue, fun path found hfound => ?_⟩
    have h := hfits (entry.1 :: path) found (by rw [TomlValue.at?_cons, hentry]; exact hfound)
    rwa [TomlValue.at?_cons, hvalue] at h
  · intro hentries path found hfound
    cases path with
    | nil =>
        rw [TomlValue.at?_nil, Option.some.injEq] at hfound
        exact ⟨_, TomlValue.at?_nil _, hfound ▸ rfl⟩
    | cons key path =>
        rw [TomlValue.at?_cons] at hfound
        obtain ⟨value, hvalue, hfound⟩ := Option.bind_eq_some_iff.mp hfound
        obtain ⟨expected, hexpected, hfits⟩ :=
          hentries (key, value) ((mem_iff_lookup hnodup _).mpr hvalue)
        rw [TomlValue.at?_cons, hexpected]
        exact hfits path found hfound

/-! ## What is validated -/

/-- The tests tell any two types apart. -/
theorem typeMismatch_iff (value defaultValue : TomlValue) :
    typeMismatch value defaultValue = true ↔ defaultValue.type ≠ value.type := by
  have hall : ∀ type : TomlType, type ∈ [TomlType.table, .array, .string, .integer,
      .floatingPoint, .boolean, .date, .time, .dateTime] := by
    rintro (_ | _ | _ | _ | _ | _ | _ | _ | _) <;> simp
  rw [typeMismatch, typeTests, List.any_map, List.any_eq_true]
  constructor
  · rintro ⟨type, -, hdiffer⟩ heq
    simp [heq] at hdiffer
  · intro hne
    exact ⟨value.type, hall _, by simp [hne]⟩

variable {defaults entries rest : List (String × TomlValue)} {location : String}

theorem validateEntries_cons (key : String) (value : TomlValue) :
    validateEntries defaults ((key, value) :: rest) location =
      match defaults.lookup key with
      | none => .error (.notFound (newLocation location key))
      | some defaultValue =>
        if typeMismatch value defaultValue then .error (.typeMismatch (newLocation location key))
        else
          match validateValue defaultValue value (newLocation location key) with
          | .error error => .error error
          | .ok () => validateEntries defaults rest location := rfl

/-- The loop ends without an exception if each entry is in order. -/
theorem validateEntries_eq_ok_iff :
    validateEntries defaults entries location = .ok () ↔ ∀ entry ∈ entries, ∃ expected,
      defaults.lookup entry.1 = some expected ∧ expected.type = entry.2.type ∧
        validateValue expected entry.2 (newLocation location entry.1) = .ok () := by
  induction entries with
  | nil => exact iff_of_true rfl nofun
  | cons entry rest ih =>
      obtain ⟨key, value⟩ := entry
      rw [validateEntries_cons, List.forall_mem_cons, ← ih]
      cases defaults.lookup key with
      | none => simp
      | some expected =>
          simp only [Option.some.injEq, exists_eq_left']
          by_cases htype : expected.type = value.type
          · rw [if_neg fun h => (typeMismatch_iff ..).mp h htype]
            cases validateValue expected value (newLocation location key) with
            | error error => simp
            | ok => simp [htype]
          · rw [if_pos ((typeMismatch_iff ..).mpr htype)]
            simp [htype]

/-- A value of the right type is accepted just if it fits. -/
theorem validateValue_eq_ok_iff {value : TomlValue} (hvalue : value.WellFormed)
    {defaultValue : TomlValue} (htype : defaultValue.type = value.type) (location : String) :
    validateValue defaultValue value location = .ok () ↔ Fits defaultValue value := by
  induction value using TomlValue.induction generalizing defaultValue location with
  | htable entries ih =>
      obtain ⟨defaults, rfl⟩ := TomlValue.eq_table_of_type htype
      obtain ⟨hnodup, hbelow⟩ := hvalue
      rw [TomlValue.entriesWellFormed_iff] at hbelow
      rw [fits_table_iff defaults hnodup]
      refine validateEntries_eq_ok_iff.trans (forall₂_congr fun entry hmem =>
        exists_congr fun expected => and_congr_right fun _ => ?_)
      constructor
      · rintro ⟨htype, haccepted⟩
        exact (ih entry hmem (hbelow entry hmem) htype _).mp haccepted
      · exact fun hfits => ⟨hfits.type_eq,
          (ih entry hmem (hbelow entry hmem) hfits.type_eq _).mpr hfits⟩
  | hleaf value hleaf =>
      refine iff_of_true ?_ ?_
      · cases value with
        | table entries => exact absurd rfl hleaf
        | _ => rfl
      · intro path found hfound
        cases path with
        | nil =>
            rw [TomlValue.at?_nil, Option.some.injEq] at hfound
            exact ⟨defaultValue, TomlValue.at?_nil _, hfound ▸ htype⟩
        | cons key path =>
            rw [TomlValue.at?_cons_of_type hleaf] at hfound
            cases hfound

def TomlTable.value (table : TomlTable) : TomlValue := .table table.entries

theorem validateTable_eq_ok_iff (defaultConfig config : TomlTable) (location : String) :
    validateTable defaultConfig config location = .ok () ↔
      Fits defaultConfig.value config.value :=
  validateValue_eq_ok_iff config.wellFormed (show defaultConfig.value.type = _ from rfl) location

/-! ## What an error names -/

/-- The entry at which the loop ends with an exception. -/
theorem exists_of_validateEntries_error {error : ValidationError}
    (herror : validateEntries defaults entries location = .error error) :
    ∃ entry ∈ entries,
      (defaults.lookup entry.1 = none ∧ error = .notFound (newLocation location entry.1)) ∨
      ∃ expected, defaults.lookup entry.1 = some expected ∧
        (expected.type ≠ entry.2.type ∧ error = .typeMismatch (newLocation location entry.1) ∨
          expected.type = entry.2.type ∧
            validateValue expected entry.2 (newLocation location entry.1) = .error error) := by
  induction entries with
  | nil => cases herror
  | cons entry rest ih =>
      obtain ⟨key, value⟩ := entry
      rw [validateEntries_cons] at herror
      have hmem : (key, value) ∈ (key, value) :: rest := List.mem_cons_self
      cases hlookup : defaults.lookup key with
      | none =>
          rw [hlookup] at herror
          exact ⟨_, hmem, .inl ⟨hlookup, (Except.error.inj herror).symm⟩⟩
      | some expected =>
          simp only [hlookup] at herror
          by_cases htype : expected.type = value.type
          · rw [if_neg fun h => (typeMismatch_iff ..).mp h htype] at herror
            cases hvalue : validateValue expected value (newLocation location key) with
            | error found =>
                rw [hvalue] at herror
                exact ⟨_, hmem, .inr ⟨expected, hlookup, .inr ⟨htype, hvalue.trans herror⟩⟩⟩
            | ok =>
                rw [hvalue] at herror
                obtain ⟨entry, hentry, hcases⟩ := ih herror
                exact ⟨entry, List.mem_cons_of_mem _ hentry, hcases⟩
          · rw [if_pos ((typeMismatch_iff ..).mpr htype)] at herror
            exact ⟨_, hmem, .inr ⟨expected, hlookup, .inl
              ⟨htype, (Except.error.inj herror).symm⟩⟩⟩

/-- What offends below a key offends above it. -/
theorem Offends.cons {key : String} {value expected : TomlValue} {path : List String}
    (hvalue : entries.lookup key = some value) (hexpected : defaults.lookup key = some expected)
    (hoffends : Offends expected value path) :
    Offends (.table defaults) (.table entries) (key :: path) := by
  refine ⟨?_, fun front hfront hne => ?_⟩
  · obtain ⟨found, hfound, hmismatch⟩ := hoffends.exists_mismatch
    exact ⟨found, by rwa [TomlValue.at?_cons, hvalue], by rwa [TomlValue.at?_cons, hexpected]⟩
  · cases front with
    | nil => exact ⟨⟨entries, TomlValue.at?_nil _⟩, defaults, TomlValue.at?_nil _⟩
    | cons first front =>
        obtain ⟨rfl, hrest⟩ := List.cons_prefix_cons.mp hfront
        rw [TomlValue.at?_cons, TomlValue.at?_cons, hvalue, hexpected]
        exact hoffends.tables front hrest fun heq => hne (heq ▸ rfl)

/-- The key alone offends. -/
theorem Offends.single {key : String} {value : TomlValue}
    (hvalue : entries.lookup key = some value)
    (hmismatch : ∀ expected, defaults.lookup key = some expected → expected.type ≠ value.type) :
    Offends (.table defaults) (.table entries) [key] := by
  refine ⟨⟨value, by simp [hvalue], fun expected h => hmismatch expected (by simpa using h)⟩, ?_⟩
  intro front hfront hne
  have hnil : front = [] := by
    cases front with
    | nil => rfl
    | cons first front =>
        obtain ⟨rfl, hrest⟩ := List.cons_prefix_cons.mp hfront
        exact absurd (List.prefix_nil.mp hrest ▸ rfl) hne
  subst hnil
  exact ⟨⟨entries, TomlValue.at?_nil _⟩, defaults, TomlValue.at?_nil _⟩

theorem offends_of_validateValue_error {value : TomlValue} (hvalue : value.WellFormed)
    {defaultValue : TomlValue} {location : String} {error : ValidationError}
    (herror : validateValue defaultValue value location = .error error) :
    ∃ path, Offends defaultValue value path ∧
      error.location = path.foldl newLocation location := by
  induction value using TomlValue.induction generalizing defaultValue location with
  | htable entries ih =>
      obtain ⟨hnodup, hbelow⟩ := hvalue
      rw [TomlValue.entriesWellFormed_iff] at hbelow
      cases defaultValue with
      | table defaults =>
          obtain ⟨entry, hmem, hcases⟩ := exists_of_validateEntries_error herror
          have hentry := (mem_iff_lookup hnodup entry).mp hmem
          obtain ⟨hnone, rfl⟩ | ⟨expected, hexpected, ⟨htype, rfl⟩ | ⟨-, herror⟩⟩ := hcases
          · exact ⟨[entry.1], .single hentry (by simp [hnone]), rfl⟩
          · exact ⟨[entry.1], .single hentry (by simpa [hexpected] using htype), rfl⟩
          · obtain ⟨path, hpath, hlocation⟩ := ih entry hmem (hbelow entry hmem) herror
            exact ⟨entry.1 :: path, hpath.cons hentry hexpected, hlocation⟩
      | _ => cases herror
  | hleaf value hleaf =>
      cases value with
      | table entries => exact absurd rfl hleaf
      | _ => cases herror

/-- The exception names a path that offends. -/
theorem offends_of_validateTable_error {defaultConfig config : TomlTable} {location : String}
    {error : ValidationError}
    (herror : validateTable defaultConfig config location = .error error) :
    ∃ path, Offends defaultConfig.value config.value path ∧
      error.location = path.foldl newLocation location :=
  @offends_of_validateValue_error config.value config.wellFormed defaultConfig.value _ _ herror

/-! ## Removing keys -/

theorem wellFormed_removeKey (path : List String) {entries : List (String × TomlValue)}
    (hentries : (TomlValue.table entries).WellFormed) :
    (TomlValue.table (removeKey path entries)).WellFormed := by
  induction path generalizing entries with
  | nil => exact hentries
  | cons key path ih =>
      obtain ⟨hnodup, hbelow⟩ := hentries
      rw [TomlValue.entriesWellFormed_iff] at hbelow
      cases path with
      | nil =>
          refine ⟨hnodup.sublist (List.filter_sublist.map Prod.fst), ?_⟩
          rw [TomlValue.entriesWellFormed_iff]
          exact fun entry hmem => hbelow entry (List.mem_of_mem_filter hmem)
      | cons next path =>
          refine ⟨by rwa [removeKey_cons_cons, List.map_map], ?_⟩
          rw [TomlValue.entriesWellFormed_iff, removeKey_cons_cons, List.forall_mem_map]
          intro entry hmem
          have hentry := hbelow entry hmem
          by_cases hkey : entry.1 = key
          · rw [if_pos hkey]
            cases hvalue : entry.2 with
            | table below => exact ih (hvalue ▸ hentry)
            | _ => trivial
          · rw [if_neg hkey]
            exact hentry

/-- What is left fits to what was there. -/
theorem fits_removeKey (path : List String) {entries : List (String × TomlValue)}
    (hentries : (TomlValue.table entries).WellFormed) :
    Fits (.table entries) (.table (removeKey path entries)) := by
  induction path generalizing entries with
  | nil => exact Fits.refl _
  | cons key path ih =>
      have hremoved := wellFormed_removeKey (key :: path) hentries
      obtain ⟨hnodup, hbelow⟩ := hentries
      rw [TomlValue.entriesWellFormed_iff] at hbelow
      cases path with
      | nil =>
          refine (fits_table_iff entries hremoved.1).mpr fun entry hmem => ?_
          exact ⟨entry.2, (mem_iff_lookup hnodup entry).mp (List.mem_of_mem_filter hmem),
            Fits.refl _⟩
      | cons next path =>
          refine (fits_table_iff entries hremoved.1).mpr ?_
          rw [removeKey_cons_cons, List.forall_mem_map]
          intro entry hmem
          refine ⟨entry.2, (mem_iff_lookup hnodup entry).mp hmem, ?_⟩
          have hentry := hbelow entry hmem
          by_cases hkey : entry.1 = key
          · rw [if_pos hkey]
            cases hvalue : entry.2 with
            | table below => exact ih (hvalue ▸ hentry)
            | _ => exact Fits.refl _
          · rw [if_neg hkey]
            exact Fits.refl _

/-- The table without the key that the path ends in. -/
def TomlTable.remove (table : TomlTable) (path : List String) : TomlTable :=
  ⟨removeKey path table.entries, wellFormed_removeKey path table.wellFormed⟩

theorem fits_foldl_remove (table : TomlTable) (paths : List (List String)) :
    Fits table.value (paths.foldl TomlTable.remove table).value := by
  induction paths generalizing table with
  | nil => exact Fits.refl _
  | cons path rest ih => exact (fits_removeKey path table.wellFormed).trans (ih _)

/-- `validate_table` throws just where a path leads through tables to a key that the default
configuration does not have or has with another type.  So it accepts every table against itself,
what is accepted against an accepted table, and what is left of an accepted table. -/
theorem validateTable_exact :
    (∀ (defaultConfig config : TomlTable) (location : String),
      (∃ error, validateTable defaultConfig config location = .error error) ↔
        ∃ path, Offends defaultConfig.value config.value path) ∧
    (∀ (config : TomlTable) (location : String), validateTable config config location = .ok ()) ∧
    (∀ (first second third : TomlTable) (location location' location'' : String),
      validateTable first second location = .ok () →
        validateTable second third location' = .ok () →
          validateTable first third location'' = .ok ()) ∧
    ∀ (defaultConfig config : TomlTable) (paths : List (List String))
      (location location' : String), validateTable defaultConfig config location = .ok () →
        validateTable defaultConfig (paths.foldl TomlTable.remove config) location' = .ok () := by
  refine ⟨fun defaultConfig config location => ?_, fun config location => ?_, ?_, ?_⟩
  · have hfits := (validateTable_eq_ok_iff defaultConfig config location).trans
      (fits_iff_not_offends _ _)
    constructor
    · rintro ⟨error, herror⟩
      obtain ⟨path, hpath, -⟩ := offends_of_validateTable_error herror
      exact ⟨path, hpath⟩
    · rintro ⟨path, hpath⟩
      cases hresult : validateTable defaultConfig config location with
      | error error => exact ⟨error, rfl⟩
      | ok => exact absurd hpath (hfits.mp hresult path)
  · exact (validateTable_eq_ok_iff config config location).mpr (Fits.refl _)
  · intro first second third location location' location'' hfirst hsecond
    rw [validateTable_eq_ok_iff] at hfirst hsecond ⊢
    exact hfirst.trans hsecond
  · intro defaultConfig config paths location location' haccepted
    rw [validateTable_eq_ok_iff] at haccepted ⊢
    exact haccepted.trans (fits_foldl_remove config paths)

end Trun.Config
