import Trun.Config.Including

/-!
# What a loaded configuration is made of

A loaded configuration should be the file's own data without its directive, under the data of the
files that it includes.  The directive is erased from `config`, while `merged_data`, which was
copied before, is what is returned.
-/

namespace Trun.Config

universe u

variable {Dir : Type u} [DecidableEq Dir] {fs : FileSystem Dir}

/-! ## Tables by their paths -/

/-- What a path of keys ends in. -/
inductive Content where
  | string (text : String)
  | table
  | other (text : String)
  deriving DecidableEq

namespace Node

def content : Node → Content
  | .string text => .string text
  | .table _ => .table
  | .other text => .other text

/-- What the keys of a path lead to, from table to table. -/
def at? : Node → List String → Option Node
  | node, [] => some node
  | .table entries, key :: path => (entries.lookup key).bind (·.at? path)
  | _, _ :: _ => none

end Node

def contentAt (node : Option Node) (path : List String) : Option Content :=
  (node.bind (·.at? path)).map Node.content

/-- The same data, in whatever order the tables have them. -/
def Same (node other : Option Node) : Prop := ∀ path, contentAt node path = contentAt other path

/-! ## The merge of the included files -/

/-- The file's own keys without the directive. -/
def withoutDirective (config : Table) : Table :=
  match includeTable config with
  | some _ => config.filter fun entry => entry.1 ≠ "include"
  | none => config

def namedIncludes (config : Table) : List (String × Path) :=
  relativePaths ((includeTable config).getD [])

/-- The result is the file's own data under the data of the included files. -/
structure Overlay (config : Table) (data : String → Table) (result : Table) : Prop where
  /-- A name stands for what its file has. -/
  named : ∀ entry ∈ namedIncludes config, entry.1 ≠ "_" →
    Same (result.lookup entry.1) (some (.table (data entry.1)))
  /-- What the file of `_` has stands beside it. -/
  spread : ∀ entry ∈ namedIncludes config, entry.1 = "_" → ∀ key node,
    (data "_").lookup key = some node → Same (result.lookup key) (some node)
  own : ∀ key, (∀ entry ∈ namedIncludes config, entry.1 ≠ "_" → entry.1 ≠ key) →
    (∀ entry ∈ namedIncludes config, entry.1 = "_" → (data "_").lookup key = none) →
      Same (result.lookup key) ((withoutDirective config).lookup key)

/-- The result is merged from the file and those that it includes, in none of which an `include`
key remains. -/
inductive Merged (fs : FileSystem Dir) : Dir × String → Table → Prop
  | mk {place : Dir × String} {config result : Table} (files : String → Dir × String)
      (data : String → Table) :
      fs.files.get? place = some (.config config) →
      (∀ entry ∈ namedIncludes config, fs.target place.1 entry.2 = some (files entry.1)) →
      (∀ entry ∈ namedIncludes config, Merged fs (files entry.1) (data entry.1)) →
      (∀ entry ∈ namedIncludes config, (data entry.1).lookup "include" = none) →
      Overlay config data result → Merged fs place result

/-- The file loads to what is merged from the includes, without a directive, in whatever order
they are iterated. -/
def MergesIncludes (fs : FileSystem Dir) (start : Path) : Prop :=
  ∃ place result, fs.locate start = some place ∧ Merged fs place result ∧
    (∀ includes, result.lookup "include" ≠ some (.table includes)) ∧
      ∀ orders, ∃ fuel table, load fs orders fuel start = some (.ok table) ∧
        Same (some (.table table)) (some (.table result))

/-! ## The directive stays -/

def HasKey (table : Table) (key : String) : Prop := ∃ node, table.lookup key = some node

theorem hasKey_iff_mem {table : Table} {key : String} :
    HasKey table key ↔ key ∈ table.map Prod.fst := by
  rw [HasKey, ← Option.isSome_iff_exists, Option.isSome_iff_ne_none, Ne, List.lookup_eq_none_iff,
    List.mem_map]
  simp only [bne_iff_ne, ne_eq, not_forall, not_not, Prod.exists]
  constructor
  · rintro ⟨name, node, hmem, rfl⟩
    exact ⟨_, _, hmem, rfl⟩
  · rintro ⟨name, node, hmem, rfl⟩
    exact ⟨_, _, hmem, rfl⟩

theorem HasKey.insertOrAssign {table : Table} {key : String} (hkey : HasKey table key)
    (name : String) (node : Node) : HasKey (table.insertOrAssign name node) key := by
  rw [hasKey_iff_mem] at hkey ⊢
  obtain ⟨entry, hmem, rfl⟩ := List.mem_map.mp hkey
  rw [Table.insertOrAssign, List.map_append, List.mem_append]
  by_cases hname : entry.1 = name
  · exact .inr (by simp [hname])
  · exact .inl (List.mem_map_of_mem (List.mem_filter.mpr ⟨hmem, by simpa using hname⟩))

theorem HasKey.mergeData {table : Table} {key : String} (hkey : HasKey table key)
    (name : String) (data : Table) : HasKey (mergeData table name data) key := by
  rw [Config.mergeData]
  split
  · induction data generalizing table with
    | nil => exact hkey
    | cons entry rest ih => exact ih (hkey.insertOrAssign entry.1 entry.2)
  · exact hkey.insertOrAssign name _

/-- The included files overwrite keys and remove none. -/
theorem HasKey.processIncludedFiles {load : Path → List Path → String → Loaded}
    {includeChain key : String} {entries : List (String × Path)} {table merged : Table}
    {included after : List Path} (hkey : HasKey table key)
    (hprocess : processIncludedFiles load includeChain entries table included =
      some (.ok (merged, after))) : HasKey merged key := by
  induction entries generalizing table included with
  | nil =>
      cases hprocess
      exact hkey
  | cons entry rest ih =>
      rw [Config.processIncludedFiles] at hprocess
      split at hprocess
      · cases hprocess
      · cases hprocess
      · exact ih (hkey.mergeData _ _) hprocess

variable {orders : Path → HashOrder (String × Path)} {start : Path} {place : Dir × String}
  {config : Table}

theorem hasKey_include_of_includeTable {includes : Table}
    (hincludes : includeTable config = some includes) : HasKey config "include" := by
  rw [includeTable] at hincludes
  split at hincludes
  · exact ⟨_, by assumption⟩
  · cases hincludes

/-- A file with a directive loads to a table with the key of the directive. -/
theorem hasKey_include_of_load (hlocate : fs.locate start = some place)
    (hget : fs.files.get? place = some (.config config)) {includes table : Table}
    (hincludes : includeTable config = some includes) {fuel : ℕ}
    (hload : load fs orders fuel start = some (.ok table)) : HasKey table "include" := by
  obtain ⟨outcome, hrun, houtcome⟩ := Option.map_eq_some_iff.mp hload
  cases outcome with
  | error error => cases houtcome
  | ok found =>
      obtain rfl : found.1 = table := Except.ok.inj houtcome
      cases fuel with
      | zero => cases hrun
      | succ fuel =>
          cases outcome_of_loadConfigFile hrun with
          | plain found _ hfound _ hnone =>
              rw [eq_of_loadTomlFile hlocate hget hfound, hincludes] at hnone
              cases hnone
          | merged found _ merged after _ hfound _ hprocess =>
              obtain rfl := eq_of_loadTomlFile hlocate hget hfound
              exact (hasKey_include_of_includeTable hincludes).processIncludedFiles hprocess

/-! ## Files with and without a directive -/

theorem Same.lookup_eq_none {node : Option Node} (hsame : Same node none) : node = none := by
  cases node with
  | none => rfl
  | some node =>
      have hroot := hsame []
      cases node <;> cases hroot

theorem Same.lookup {table other : Table} (hsame : Same (some (.table table)) (some (.table other)))
    (key : String) : Same (table.lookup key) (other.lookup key) := fun path => hsame (key :: path)

theorem lookup_withoutDirective {includes : Table}
    (hincludes : includeTable config = some includes) :
    (withoutDirective config).lookup "include" = none := by
  rw [withoutDirective, hincludes, List.lookup_eq_none_iff]
  intro entry hmem
  have hne := (List.mem_filter.mp hmem).2
  rw [decide_eq_true_eq] at hne
  exact bne_iff_ne.mpr hne.symm

/-- A merged table has no directive left, whatever the file includes. -/
theorem Merged.lookup_include {result includes : Table} (hmerged : Merged fs place result)
    (hget : fs.files.get? place = some (.config config))
    (hincludes : includeTable config = some includes)
    (hroot : ∀ includes, result.lookup "include" ≠ some (.table includes)) :
    result.lookup "include" = none := by
  cases hmerged with
  | @mk _ found _ files data hfound _ _ hclean hoverlay =>
      rw [hget] at hfound
      cases hfound
      have hunnamed : ∀ entry ∈ namedIncludes config, entry.1 ≠ "_" → entry.1 ≠ "include" := by
        rintro entry hmem hname heq
        have hsame := hoverlay.named entry hmem hname
        rw [heq] at hsame
        -- the name `include` would leave a table there
        have hcontent := hsame []
        cases hlookup : result.lookup "include" with
        | none =>
            rw [hlookup] at hcontent
            cases hcontent
        | some node =>
            rw [hlookup] at hcontent
            cases node with
            | table entries => exact hroot entries hlookup
            | _ => cases hcontent
      have hown := hoverlay.own "include" hunnamed fun entry hmem hname =>
        hname ▸ hclean entry hmem
      rw [lookup_withoutDirective hincludes] at hown
      exact hown.lookup_eq_none

theorem not_mergesIncludes {includes : Table} (hlocate : fs.locate start = some place)
    (hget : fs.files.get? place = some (.config config))
    (hincludes : includeTable config = some includes) : ¬MergesIncludes fs start := by
  rintro ⟨other, result, hother, hmerged, hroot, hload⟩
  rw [hlocate] at hother
  cases hother
  obtain ⟨fuel, table, hload, hsame⟩ := hload fun _ => .insertion
  obtain ⟨node, hnode⟩ := hasKey_include_of_load hlocate hget hincludes hload
  have hinclude := hsame.lookup "include"
  rw [hmerged.lookup_include hget hincludes hroot] at hinclude
  rw [hinclude.lookup_eq_none] at hnode
  cases hnode

/-- A file without a directive loads to its own data. -/
theorem load_of_includeTable_none (hlocate : fs.locate start = some place)
    (hget : fs.files.get? place = some (.config config)) (hshort : fs.tooLong start = false)
    (hfilled : config ≠ [])
    (hnone : includeTable config = none) (orders : Path → HashOrder (String × Path)) :
    load fs orders 1 start = some (.ok config) := by
  have hfile : loadTomlFile fs start = .ok config := by
    rw [loadTomlFile_of_get? hlocate hget, hshort]
    rfl
  rw [load, loadConfigFile, if_neg List.not_mem_nil, hfile]
  cases config with
  | nil => exact absurd rfl hfilled
  | cons entry rest =>
      dsimp only
      rw [hnone]
      rfl

/-- A path that is too long is not loaded. -/
theorem tooLong_of_load {fuel : ℕ} {table : Table}
    (hload : load fs orders fuel start = some (.ok table)) : fs.tooLong start = false := by
  obtain ⟨outcome, hrun, houtcome⟩ := Option.map_eq_some_iff.mp hload
  cases outcome with
  | error error => cases houtcome
  | ok found =>
      cases fuel with
      | zero => cases hrun
      | succ fuel =>
          cases outcome_of_loadConfigFile hrun with
          | plain _ _ hfound => exact (get?_of_loadTomlFile hfound).1
          | merged _ _ _ _ _ hfound => exact (get?_of_loadTomlFile hfound).1

/-- A non-empty file loads to the merge of its includes just if it has no include table and its
path is not too long. -/
theorem mergesIncludes_iff (hlocate : fs.locate start = some place)
    (hget : fs.files.get? place = some (.config config)) (hfilled : config ≠ []) :
    MergesIncludes fs start ↔ includeTable config = none ∧ fs.tooLong start = false := by
  constructor
  · intro hmerges
    refine ⟨?_, ?_⟩
    · cases hincludes : includeTable config with
      | none => rfl
      | some includes => exact absurd hmerges (not_mergesIncludes hlocate hget hincludes)
    · obtain ⟨_, _, -, -, -, hloads⟩ := hmerges
      obtain ⟨_, _, hload, -⟩ := hloads fun _ => .insertion
      exact tooLong_of_load hload
  · rintro ⟨hnone, hshort⟩
    have hnames : namedIncludes config = [] := by
      rw [namedIncludes, hnone]
      rfl
    refine ⟨place, config, hlocate, .mk (fun _ => place) (fun _ => []) hget ?_ ?_ ?_ ?_, ?_, ?_⟩
    · rw [hnames]
      exact nofun
    · rw [hnames]
      exact nofun
    · rw [hnames]
      exact nofun
    · refine ⟨?_, ?_, fun key _ _ path => ?_⟩
      · rw [hnames]
        exact nofun
      · rw [hnames]
        exact nofun
      · rw [withoutDirective, hnone]
    · intro includes hlookup
      rw [includeTable, hlookup] at hnone
      cases hnone
    · exact fun orders => ⟨1, config,
        load_of_includeTable_none hlocate hget hshort hfilled hnone orders, fun _ => rfl⟩

/-- A file that includes another one under a name. -/
def oneInclude : FileSystem Unit where
  root := ()
  cwd := ()
  enter _ _ := none
  files := ((∅ : Dict (Unit × String) Entry).set ((), "main.toml")
    (.config [("a", .other "1"), ("include", .table [("b", .string "b.toml")])])).set
      ((), "b.toml") (.config [("c", .other "2")])
  named := by decide
  tooLong := fun path => Nat.ble 3 path.directories.length
  pathMax := 3
  tooLong_of_deep := fun _ hdeep => Nat.ble_eq.mpr hdeep

theorem included_file_merges : MergesIncludes oneInclude (.ofString "b.toml") := by
  have hlocate : oneInclude.locate (.ofString "b.toml") = some ((), "b.toml") := rfl
  exact (mergesIncludes_iff hlocate rfl (List.cons_ne_nil _ _)).mpr ⟨rfl, rfl⟩

/-- The directive of `main.toml` is still there when it is loaded. -/
theorem directive_remains :
    load oneInclude (fun _ => .insertion) 2 (.ofString "main.toml") =
      some (.ok [("a", .other "1"), ("include", .table [("b", .string "b.toml")]),
        ("b", .table [("c", .other "2")])]) ∧
      ¬MergesIncludes oneInclude (.ofString "main.toml") :=
  ⟨rfl, not_mergesIncludes rfl rfl rfl⟩

end Trun.Config
