import Trun.Python.Dict
import Trun.Python.OrderedSet

/-!
# Loading a configuration

`Config::load_config_file` and what it calls.  The file system is a parameter; it does not
change while a configuration is loaded, and like every file system it limits the length of a path.
-/

namespace Trun.Config

universe u

/-- A `std::filesystem::path`, by its elements, which is how two of them are compared. -/
structure Path where
  absolute : Bool
  directories : List String
  filename : String
  deriving DecidableEq

namespace Path

def ofString (text : String) : Path :=
  let parts := (text.toList.splitOn '/').map String.ofList
  { absolute := text.toList.head? = some '/'
    directories := parts.dropLast.filter (· ≠ "")
    filename := parts.getLastD "" }

def toString (path : Path) : String :=
  (if path.absolute then "/" else "") ++
    String.join (path.directories.map (· ++ "/")) ++ path.filename

def isEmpty (path : Path) : Bool :=
  !path.absolute && path.directories.isEmpty && path.filename = ""

def removeFilename (path : Path) : Path := { path with filename := "" }

/-- `base / relative`. -/
def append (base relative : Path) : Path :=
  if relative.absolute then relative
  else
    { absolute := base.absolute
      directories := base.directories ++
        (if base.filename = "" then [] else [base.filename]) ++ relative.directories
      filename := relative.filename }

end Path

/-- A TOML value; only strings and tables are looked into. -/
inductive Node where
  | string (text : String)
  | table (entries : List (String × Node))
  | other (text : String)

/-- A TOML table, which has each key once. -/
abbrev Table := List (String × Node)

def Table.insertOrAssign (table : Table) (key : String) (value : Node) : Table :=
  table.filter (fun entry => entry.1 ≠ key) ++ [(key, value)]

/-- What is found where a path leads. -/
inductive Entry where
  | notRegular
  /-- It cannot be opened. -/
  | unreadable
  /-- What the parser says about it. -/
  | malformed (what : String)
  | config (table : Table)

/-- Directories, with the names that lead from one to another, finitely many files, and a limit
to the length of a path, which a path with that many directories exceeds. -/
structure FileSystem (Dir : Type u) where
  root : Dir
  /-- The current directory. -/
  cwd : Dir
  /-- `.` and `..` are names like others. -/
  enter : Dir → String → Option Dir
  files : Dict (Dir × String) Entry
  named : ∀ place ∈ files.keys, place.2 ≠ ""
  /-- Asking for the file fails with `ENAMETOOLONG`. -/
  tooLong : Path → Bool
  pathMax : ℕ
  tooLong_of_deep : ∀ path, pathMax ≤ path.directories.length → tooLong path = true

namespace FileSystem

variable {Dir : Type u}

def enterAll (fs : FileSystem Dir) (dir : Dir) (names : List String) : Option Dir :=
  names.foldlM fs.enter dir

def directory (fs : FileSystem Dir) (path : Path) : Option Dir :=
  fs.enterAll (if path.absolute then fs.root else fs.cwd) path.directories

def locate (fs : FileSystem Dir) (path : Path) : Option (Dir × String) :=
  (fs.directory path).map fun dir => (dir, path.filename)

def find [DecidableEq Dir] (fs : FileSystem Dir) (path : Path) : Option Entry :=
  (fs.locate path).bind fun place =>
    match fs.files.get? place with
    | some entry => some entry
    | none =>
        if place.2 = "" ∨ (fs.enter place.1 place.2).isSome then some .notRegular else none

end FileSystem

/-- The exceptions, each with what it is made from. -/
inductive LoadError where
  /-- `FileLoadException`. -/
  | fileLoad (filename : String)
  /-- The `std::filesystem::filesystem_error` of `exists`. -/
  | tooLong (path : Path)
  | circular (path : Path) (includeChain : String)
  /-- The `ConfigProcessingException` of an empty table. -/
  | empty (path : Path)
  /-- A `std::runtime_error` that became a `ConfigProcessingException`. -/
  | processing (cause : LoadError)
  deriving DecidableEq

def LoadError.what : LoadError → String
  | .fileLoad filename => "Error loading config file " ++ filename
  | .tooLong path => "filesystem error: status: File name too long [" ++ path.toString ++ "]"
  | .circular path includeChain =>
      "Circular include detected: " ++ path.toString ++ ". Include chain: " ++ includeChain
  | .empty path =>
      "Error processing config file Config is null or empty for file: " ++ path.toString
  | .processing cause => "Error processing config file " ++ cause.what

/-- The error began as that of a circular include. -/
def LoadError.isCircular : LoadError → Bool
  | .circular _ _ => true
  | .processing cause => cause.isCircular
  | _ => false

/-- The paths in an include table.  Values that are not strings are left out; the source
dereferences an empty optional there. -/
def relativePaths (includes : Table) : List (String × Path) :=
  includes.filterMap fun entry =>
    match entry.2 with
    | .string text => some (entry.1, .ofString text)
    | _ => none

def filePathsDict (path : Path) (includes : Table) : List (String × Path) :=
  (relativePaths includes).map fun entry => (entry.1, path.removeFilename.append entry.2)

/-- `config->get("include")`, if it is a table. -/
def includeTable (config : Table) : Option Table :=
  match config.lookup "include" with
  | some (.table includes) => some includes
  | _ => none

/-- What a call returns: the data with `included_files` as the call leaves it.  It is `none` where
the fuel did not do. -/
abbrev Loaded := Option (Except LoadError (Table × List Path))

/-- What an included file adds. -/
def mergeData (merged : Table) (name : String) (data : Table) : Table :=
  if name = "_" then data.foldl (fun merged entry => merged.insertOrAssign entry.1 entry.2) merged
  else merged.insertOrAssign name (.table data)

def processIncludedFiles (loadConfigFile : Path → List Path → String → Loaded)
    (includeChain : String) : List (String × Path) → Table → List Path → Loaded
  | [], merged, included => some (.ok (merged, included))
  | (name, filePath) :: rest, merged, included =>
    match loadConfigFile filePath included (includeChain ++ " -> " ++ filePath.toString) with
    | none => none
    | some (.error error) => some (.error error)
    | some (.ok (data, included)) =>
        processIncludedFiles loadConfigFile includeChain rest (mergeData merged name data) included

section Loading

variable {Dir : Type u} [DecidableEq Dir]

def loadTomlFile (fs : FileSystem Dir) (path : Path) : Except LoadError Table :=
  if path.isEmpty then .error (.fileLoad ("Invalid file path provided: " ++ path.toString))
  else if fs.tooLong path then .error (.tooLong path)
  else
    match fs.find path with
    | none => .error (.fileLoad ("File does not exist at path: " ++ path.toString))
    | some .notRegular =>
        .error (.fileLoad ("File path does not point to a regular file: " ++ path.toString))
    | some .unreadable =>
        .error (.fileLoad ("Failed to open file at path: " ++ path.toString))
    | some (.malformed what) =>
        .error (.fileLoad ("Failed to parse TOML file at path: " ++ path.toString ++ ". Error: " ++
          what))
    | some (.config table) => .ok table

/-- `load_config_file` with fuel for the depth of the calls.  `orders` says for each including
file in which order `file_paths_dict` is iterated. -/
def loadConfigFile (fs : FileSystem Dir) (orders : Path → HashOrder (String × Path)) :
    ℕ → Path → List Path → String → Loaded
  | 0, _, _, _ => none
  | fuel + 1, path, included, includeChain =>
    if path ∈ included then some (.error (.processing (.circular path includeChain)))
    else
      match loadTomlFile fs path with
      | .error error => some (.error (.processing error))
      | .ok [] => some (.error (.processing (.empty path)))
      | .ok config =>
        match includeTable config with
        | none => some (.ok (config, (path :: included).erase path))
        | some includes =>
          match processIncludedFiles (loadConfigFile fs orders fuel) includeChain
              ((orders path).arrange (filePathsDict path includes)) config (path :: included) with
          | none => none
          | some (.error error) => some (.error (.processing error))
          | some (.ok (merged, included)) => some (.ok (merged, included.erase path))

/-- `load_config_file` as it is called from outside. -/
def load (fs : FileSystem Dir) (orders : Path → HashOrder (String × Path)) (fuel : ℕ)
    (path : Path) : Option (Except LoadError Table) :=
  (loadConfigFile fs orders fuel path [] "").map fun outcome => outcome.map Prod.fst

end Loading

end Trun.Config
